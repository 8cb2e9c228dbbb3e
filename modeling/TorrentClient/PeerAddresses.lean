import TorrentClient.TrackerResponse

/-!
# Texts of addresses

An `Ipv4Addr` is parsed from four decimal octets with dots between them. The texts that are
accepted are just those that an address prints.
-/
namespace TorrentClient
open DecimalNumerals

/-- An octet has up to three digits and no leading zero. -/
def parseOctet (digits : Bytes) : Option UInt8 :=
  if digits ≠ [] ∧ digits.length ≤ 3 ∧ digits.all isDigit ∧
      (digits.head? = some 48 → digits = [48]) ∧ value digits < 256 then
    some (UInt8.ofNat (value digits))
  else none

/-- `Ipv4Addr::from_str` -/
def parseAddress (ip : String) : Option (UInt8 × UInt8 × UInt8 × UInt8) :=
  match (asBytes ip).splitOn 46 with
  | [a, b, c, d] => do return (← parseOctet a, ← parseOctet b, ← parseOctet c, ← parseOctet d)
  | _ => none

theorem parseOctet_numeral (x : UInt8) : parseOctet (numeral x.toNat) = some x := by
  have hall : ∀ n < 256, parseOctet (numeral n) = some (UInt8.ofNat n) := by decide +kernel
  rw [hall x.toNat x.toNat_lt, UInt8.ofNat_toNat]

theorem parseOctet_eq_some {digits : Bytes} {x : UInt8} :
    parseOctet digits = some x ↔ digits = numeral x.toNat := by
  constructor
  · intro h
    rw [parseOctet] at h
    split_ifs at h with haccept
    obtain ⟨hne, -, hall, hhead, hlt⟩ := haccept
    cases h
    rw [UInt8.toNat_ofNat_of_lt' hlt, numeral_value hne (List.all_eq_true.mp hall) hhead]
  · rintro rfl
    exact parseOctet_numeral x

theorem asBytes_append (s t : String) : asBytes (s ++ t) = asBytes s ++ asBytes t := by
  simp [asBytes]

theorem asBytes_toString (x : UInt8) : asBytes (toString x.toNat) = numeral x.toNat := by
  have hall : ∀ n < 256, asBytes (toString n) = numeral n := by decide +kernel
  exact hall x.toNat x.toNat_lt

theorem asBytes_dottedAddress (a b c d : UInt8) :
    asBytes (dottedAddress a b c d) =
      [46].intercalate ([a, b, c, d].map fun x => numeral x.toNat) := by
  have hdot : asBytes "." = [46] := by decide +kernel
  have hjoin : dottedAddress a b c d = toString a.toNat ++ "." ++ toString b.toNat ++ "." ++
      toString c.toNat ++ "." ++ toString d.toNat := rfl
  rw [hjoin]
  simp only [asBytes_append, asBytes_toString, hdot]
  simp [List.intercalate]

theorem dot_notMem_numeral (n : ℕ) : 46 ∉ numeral n := by
  intro h
  cases isDigit_of_mem_numeral h

theorem parseAddress_eq_some {ip : String} {a b c d : UInt8} :
    parseAddress ip = some (a, b, c, d) ↔ ip = dottedAddress a b c d := by
  constructor
  · intro h
    have hjoin : [46].intercalate ((asBytes ip).splitOn 46) = asBytes ip :=
      List.intercalate_splitOn 46
    rw [parseAddress] at h
    split at h
    · next w x y z hparts =>
      simp only [Option.bind_eq_bind, Option.bind_eq_some_iff, parseOctet_eq_some] at h
      obtain ⟨_, rfl, _, rfl, _, rfl, _, rfl, h⟩ := h
      cases h
      apply asBytes_injective
      rw [asBytes_dottedAddress, ← hjoin, hparts]
      rfl
    · cases h
  · rintro rfl
    rw [parseAddress, asBytes_dottedAddress, List.splitOn_intercalate 46]
    · simp [parseOctet_numeral]
    · intro part hpart
      obtain ⟨x, -, rfl⟩ := List.mem_map.mp hpart
      exact dot_notMem_numeral _
    · exact List.cons_ne_nil _ _

end TorrentClient
