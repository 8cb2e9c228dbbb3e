import TorrentClient.BencodeDecoder

/-!
# What a decoder reads

`Reads x bytes result` says what a decoding function does in front of some bytes, whatever
comes after them: it consumes them and returns the result, or it fails where there is none.
The rules compose such facts along the functions of the decoder.
-/
namespace TorrentClient
open Bencode DecimalNumerals

variable {α β : Type}

/-- A result at a position, or some failure. -/
def EndsAt (d : Decoder) : Option α → EStateM.Result (Fault DecodeError) Decoder α → Prop
  | some a, result => result = .ok a d
  | none, result => ∃ e d', result = .error e d'

def Reads (x : DecoderM α) (bytes : Bytes) (result : Option α) : Prop :=
  ∀ p r, p + (bytes ++ r).length < 2 ^ 64 →
    EndsAt ⟨p + bytes.length, r⟩ result (x ⟨p, bytes ++ r⟩)

theorem Decoder.peekByte_cons {p : ℕ} {b : UInt8} {bytes : Bytes}
    (hlt : p + (b :: bytes).length < 2 ^ 64) :
    peekByte ⟨p, b :: bytes⟩ = .ok b ⟨p, b :: bytes⟩ := by
  rw [List.length_cons] at hlt
  have hstop : p + 1 < 2 ^ 64 := by omega
  have hthere : ¬ p + (b :: bytes).length < p + 1 := by
    rw [List.length_cons]
    omega
  have hbytes : peekBytes 1 ⟨p, b :: bytes⟩ = .ok [b] ⟨p, b :: bytes⟩ := by
    rw [peekBytes, bind_of_ok (get_ok _), checkedAdd_of_lt hstop, bind_of_ok (pureStep_ok _ _),
      if_neg hthere]
    rfl
  rw [peekByte, bind_of_ok hbytes]
  rfl

namespace Reads
open Decoder

variable {x : DecoderM α} {f : α → DecoderM β} {bytes bytes' : Bytes} {result : Option α}
  {result' : Option β}

theorem pure (a : α) : Reads (pure a : DecoderM α) [] (some a) := fun _ _ _ => rfl

theorem fail (e : DecodeError) : Reads (Decoder.fail e : DecoderM α) bytes none :=
  fun _ _ _ => ⟨_, _, rfl⟩

theorem fail_then (e : DecodeError) : Reads (do let a ← Decoder.fail e; f a) bytes none :=
  fun _ _ _ => ⟨_, _, rfl⟩

theorem bind {g : α → Option β} (hx : Reads x bytes result)
    (hf : ∀ a, result = some a → Reads (f a) bytes' (g a)) :
    Reads (x >>= f) (bytes ++ bytes') (result.bind g) := by
  intro p r hlt
  rw [List.append_assoc] at hlt ⊢
  have hread := hx p (bytes' ++ r) hlt
  cases result with
  | none =>
    obtain ⟨e, d, hread⟩ := hread
    exact ⟨e, d, bind_of_error hread⟩
  | some a =>
    rw [bind_of_ok (show x _ = .ok a _ from hread), List.length_append, ← Nat.add_assoc]
    apply hf a rfl
    simp only [List.length_append] at hlt ⊢
    omega

/-- What comes after the last byte. -/
theorem andThen {g : α → Option β} (hx : Reads x bytes result)
    (hf : ∀ a, Reads (f a) [] (g a)) : Reads (x >>= f) bytes (result.bind g) := by
  have h := hx.bind fun a _ => hf a
  rwa [List.append_nil] at h

theorem map {g : α → β} (hx : Reads x bytes result) :
    Reads (do let a ← x; return g a) bytes (result.map g) := by
  rw [Option.map_eq_bind]
  exact hx.andThen fun a => Reads.pure (g a)

theorem get {f : Decoder → DecoderM β}
    (h : ∀ d : Decoder, bytes.length ≤ d.remaining → Reads (f d) bytes result') :
    Reads (do let d ← get; f d) bytes result' := by
  intro p r hlt
  apply h ⟨p, bytes ++ r⟩ _ p r hlt
  rw [remaining, List.length_append]
  exact Nat.le_add_right _ _

theorem eq_of_ok (h : Reads x bytes result) {p : ℕ} {r : Bytes}
    (hlt : p + (bytes ++ r).length < 2 ^ 64) {a : α} {d' : Decoder}
    (hrun : x ⟨p, bytes ++ r⟩ = .ok a d') : result = some a ∧ d' = ⟨p + bytes.length, r⟩ := by
  have hends := h p r hlt
  cases result with
  | none =>
    obtain ⟨e, d, hfail⟩ := hends
    cases hfail.symm.trans hrun
  | some a' =>
    cases (show x _ = .ok a' _ from hends).symm.trans hrun
    exact ⟨rfl, rfl⟩

/-- A look at the first byte consumes nothing. -/
theorem peekByte {f : UInt8 → DecoderM β} {b : UInt8} (hb : bytes.head? = some b)
    (h : Reads (f b) bytes result') : Reads (do let b ← peekByte; f b) bytes result' := by
  intro p r hlt
  obtain ⟨bytes, rfl⟩ : ∃ tail, bytes = b :: tail := ⟨_, List.eq_cons_of_mem_head? hb⟩
  rw [List.cons_append] at hlt
  rw [List.cons_append, bind_of_ok (peekByte_cons hlt), ← List.cons_append]
  exact h p r hlt

theorem read (bytes : Bytes) : Reads (Decoder.read bytes.length) bytes (some bytes) := by
  intro p r _
  have hle : bytes.length ≤ (bytes ++ r).length := by
    rw [List.length_append]
    exact Nat.le_add_right _ _
  have hread : Decoder.read bytes.length ⟨p, bytes ++ r⟩ =
      .ok ((bytes ++ r).take bytes.length) (Decoder.advance ⟨p, bytes ++ r⟩ bytes.length) := by
    rw [Decoder.read, bind_of_ok (get_ok _), if_pos hle]
    rfl
  rw [hread, advance, List.take_left, List.drop_left]
  exact rfl

theorem readByte (b : UInt8) : Reads readByte [b] (some b) := fun _ _ _ => rfl

theorem expect (b : UInt8) : Reads (expect b) [b] (some ()) := by
  intro p r hlt
  have hbyte := readByte b p r hlt
  rw [Decoder.expect, bind_of_ok (show Decoder.readByte _ = .ok b _ from hbyte), if_pos rfl]
  exact rfl

/-- `expect` and what comes after it. -/
theorem expect_then {y : DecoderM β} {b : UInt8} (h : Reads y bytes result') :
    Reads (do Decoder.expect b; y) (b :: bytes) result' :=
  (expect b).bind fun _ _ => h

theorem readWhileLoop {predicate : UInt8 → Bool} {f : Bytes → DecoderM β} {c : UInt8}
    (hall : ∀ b ∈ bytes, predicate b = true) (hc : predicate c = false) {fuel : ℕ}
    (hfuel : bytes.length < fuel) {res : Bytes}
    (h : Reads (f (res ++ bytes)) (c :: bytes') result') :
    Reads (do let buf ← readWhileLoop predicate fuel res; f buf) (bytes ++ c :: bytes') result' := by
  induction bytes generalizing fuel res with
  | nil =>
    cases fuel with
    | zero => cases hfuel
    | succ fuel =>
      rw [Decoder.readWhileLoop, bind_assoc]
      apply peekByte rfl
      simpa [hc] using h
  | cons b bytes ih =>
    cases fuel with
    | zero => cases hfuel
    | succ fuel =>
      obtain ⟨hb, hall⟩ := List.forall_mem_cons.mp hall
      rw [Decoder.readWhileLoop, bind_assoc]
      apply peekByte rfl
      rw [if_pos hb, bind_assoc]
      apply (readByte b).bind
      rintro _ ⟨rfl⟩
      apply ih hall (Nat.lt_of_succ_lt_succ hfuel)
      rwa [List.append_assoc]

theorem readWhile {predicate : UInt8 → Bool} {f : Bytes → DecoderM β} {c : UInt8}
    (hall : ∀ b ∈ bytes, predicate b = true) (hc : predicate c = false)
    (h : Reads (f bytes) (c :: bytes') result') :
    Reads (do let buf ← readWhile predicate; f buf) (bytes ++ c :: bytes') result' := by
  rw [Decoder.readWhile, bind_assoc]
  apply get
  intro d hd
  rw [List.length_append] at hd
  exact readWhileLoop hall hc (by omega) h

end Reads

theorem isNumber_of_mem_numeral {n : ℕ} {b : UInt8} (h : b ∈ numeral n) : isNumber b = true := by
  rw [isNumber, isDigit_of_mem_numeral h, Bool.or_true]

theorem isNumber_of_mem_intNumeral {i : ℤ} {b : UInt8} (h : b ∈ intNumeral i) :
    isNumber b = true := by
  rw [intNumeral] at h
  split_ifs at h
  · rcases List.mem_cons.mp h with rfl | h
    · rfl
    · exact isNumber_of_mem_numeral h
  · exact isNumber_of_mem_numeral h

/-- No numeral has the form that `read_number` refuses. -/
theorem intNumeral_canonical (i : ℤ) :
    ((intNumeral i).isEmpty || (decide ((intNumeral i).length > 1) &&
      (intNumeral i).head? == some 48) || intNumeral i == [45, 48]) = false := by
  have hnatural : ∀ n, ((numeral n).isEmpty || (decide ((numeral n).length > 1) &&
      (numeral n).head? == some 48)) = false := by
    intro n
    cases hn : numeral n with
    | nil => exact absurd hn (numeral_ne_nil n)
    | cons b bs =>
      by_cases hb : b = 48
      · rw [hb] at hn
        rw [numeral_of_head_zero hn]
        rfl
      · simp [hb]
  rw [intNumeral]
  split_ifs with hneg
  · have hne : numeral i.natAbs ≠ [48] := by
      intro heq
      have hvalue := value_numeral i.natAbs
      rw [heq] at hvalue
      exact absurd (Int.natAbs_eq_zero.mp (hvalue.symm.trans rfl)) (by omega)
    simp [hne]
  · rw [hnatural, Bool.false_or, beq_eq_false_iff_ne]
    intro heq
    have hdigit := isDigit_of_mem_numeral (heq ▸ List.mem_cons_self : (45 : UInt8) ∈ numeral i.natAbs)
    cases hdigit

theorem parseDigits_numeral (n : ℕ) : IntegerType.parseDigits (numeral n) = some n := by
  have hne : (numeral n).isEmpty = false := by
    rw [List.isEmpty_eq_false_iff]
    exact numeral_ne_nil n
  have hall : (numeral n).all isDigit = true :=
    List.all_eq_true.mpr fun b hb => isDigit_of_mem_numeral hb
  rw [IntegerType.parseDigits, hne, hall, value_numeral]
  rfl

theorem IntegerType.not_contains_of_neg {ty : IntegerType} (hs : ty.signed = false) {i : ℤ}
    (hneg : i < 0) : ¬ ty.Contains i := by
  rintro ⟨hmin, -⟩
  rw [IntegerType.min, hs, if_neg Bool.false_ne_true] at hmin
  omega

theorem IntegerType.parse_numeral (ty : IntegerType) (i : ℤ) :
    ty.parse (intNumeral i) = if ty.Contains i then some i else none := by
  by_cases hneg : i < 0
  · have hi : -((i.natAbs : ℕ) : ℤ) = i := by omega
    rw [intNumeral, if_pos hneg, IntegerType.parse]
    cases hs : ty.signed with
    | true =>
      rw [if_pos rfl, parseDigits_numeral, Option.map_some, hi]
      rfl
    | false =>
      rw [if_neg Bool.false_ne_true, if_neg (not_contains_of_neg hs hneg)]
      rfl
  · rw [intNumeral, if_neg hneg]
    have hi : ((i.natAbs : ℕ) : ℤ) = i := by omega
    cases hn : numeral i.natAbs with
    | nil => exact absurd hn (numeral_ne_nil _)
    | cons b digits =>
      have hb : b ≠ 45 := by
        rintro rfl
        have hdigit := isDigit_of_mem_numeral (hn ▸ List.mem_cons_self : (45 : UInt8) ∈ numeral i.natAbs)
        cases hdigit
      have hparse := parseDigits_numeral i.natAbs
      rw [hn] at hparse
      simp [IntegerType.parse, hb, hparse, hi]

namespace Reads
open Decoder

variable {bytes : Bytes} {result : Option β}

/-- A numeral is read up to the next byte that is no part of a number. -/
theorem readNumber {ty : IntegerType} {i : ℤ} {f : ℤ → DecoderM β} {c : UInt8}
    (hc : isNumber c = false) (h : ty.Contains i → Reads (f i) (c :: bytes) result) :
    Reads (do let n ← readNumber ty; f n) (intNumeral i ++ c :: bytes)
      (if ty.Contains i then result else none) := by
  rw [Decoder.readNumber, bind_assoc]
  apply readWhile (fun _ hb => isNumber_of_mem_intNumeral hb) hc
  rw [intNumeral_canonical, if_neg Bool.false_ne_true, ty.parse_numeral]
  by_cases hin : ty.Contains i
  · rw [if_pos hin, if_pos hin]
    exact h hin
  · rw [if_neg hin, if_neg hin]
    exact fail_then _

theorem readInteger (ty : IntegerType) (i : ℤ) :
    Reads (readInteger ty) (105 :: (intNumeral i ++ [101])) (if ty.Contains i then some i else none) := by
  rw [Decoder.readInteger]
  apply expect_then
  apply readNumber rfl
  intro _
  exact expect_then (pure i)

theorem contains_usize {n : ℕ} : IntegerType.usize.Contains n ↔ n < 2 ^ 64 := by
  have hmin : IntegerType.usize.min = 0 := rfl
  have hmax : IntegerType.usize.max = 2 ^ 64 - 1 := rfl
  rw [IntegerType.Contains, hmin, hmax]
  omega

/-- The length of a string that is there fits in `usize`. -/
theorem readByteString (bs : Bytes) : Reads Decoder.readByteString (printString bs) (some bs) := by
  intro p r hlt
  have hlen : bs.length < 2 ^ 64 := by
    simp only [printString, List.length_append, List.length_cons] at hlt
    omega
  have hin := contains_usize.mpr hlen
  have hread : Reads Decoder.readByteString (intNumeral bs.length ++ 58 :: bs)
      (if IntegerType.usize.Contains bs.length then some bs else none) := by
    rw [Decoder.readByteString]
    apply readNumber rfl
    intro _
    apply expect_then
    apply get
    intro d hd
    rw [Int.toNat_natCast, if_neg (Nat.not_lt.mpr hd)]
    exact read bs
  rw [if_pos hin, intNumeral_ofNat] at hread
  exact hread p r hlt

theorem readStr (bs : Bytes) : Reads Decoder.readStr (printString bs) (fromUtf8 bs) := by
  refine (readByteString bs).andThen (g := fromUtf8) fun bytes => ?_
  cases fromUtf8 bytes with
  | some s => exact Reads.pure s
  | none => exact Reads.fail _

end Reads
end TorrentClient
