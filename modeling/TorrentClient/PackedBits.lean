import Mathlib.Data.Nat.Bitwise
import Mathlib.Data.List.Basic

/-!
# Bits packed into bytes

The bits of a list stand in its bytes one after another, the first in the highest place of
the first byte. A byte takes part in the bits of its own eight places only.
-/
namespace PackedBits

/-- The byte with the bit of the index `i` alone. -/
def mask (i : ℕ) : UInt8 := 1 <<< UInt8.ofNat (7 - i % 8)

theorem toNat_mask (i : ℕ) : (mask i).toNat = 2 ^ (7 - i % 8) := by
  have hlt : 7 - i % 8 < 8 := by omega
  have hpow : 2 ^ (7 - i % 8) < 2 ^ 8 := Nat.pow_lt_pow_right (by decide) hlt
  simp only [mask, UInt8.toNat_shiftLeft, UInt8.toNat_ofNat', UInt8.toNat_one]
  rw [Nat.mod_eq_of_lt (a := 7 - i % 8) (by omega), Nat.mod_eq_of_lt hlt, Nat.shiftLeft_eq,
    Nat.one_mul, Nat.mod_eq_of_lt hpow]

/-- The place of the index `i` in a byte. -/
def testBit (byte : UInt8) (i : ℕ) : Bool := byte.toNat.testBit (7 - i % 8)

theorem and_mask_ne_zero (byte : UInt8) (i : ℕ) : (byte &&& mask i != 0) = testBit byte i := by
  have hzero : byte &&& mask i = 0 ↔ (byte &&& mask i).toNat = 0 := by
    rw [← UInt8.toNat_inj, UInt8.toNat_zero]
  rw [Bool.eq_iff_iff, bne_iff_ne, ne_eq, hzero, UInt8.toNat_and, toNat_mask, Nat.and_two_pow,
    testBit]
  cases byte.toNat.testBit (7 - i % 8) with
  | true => simp
  | false => simp

theorem testBit_zero (i : ℕ) : testBit 0 i = false := Nat.zero_testBit _

theorem testBit_or_mask (byte : UInt8) (i j : ℕ) :
    testBit (byte ||| mask i) j = (testBit byte j || decide (i % 8 = j % 8)) := by
  rw [testBit, UInt8.toNat_or, toNat_mask, Nat.testBit_or, Nat.testBit_two_pow, testBit]
  congr 2
  rw [eq_iff_iff]
  omega

def bit (bytes : List UInt8) (i : ℕ) : Bool := (bytes[i / 8]?).any fun byte => testBit byte i

theorem bit_of_getElem? {bytes : List UInt8} {i : ℕ} {byte : UInt8} (h : bytes[i / 8]? = some byte) :
    bit bytes i = testBit byte i := by
  rw [bit, h, Option.any_some]

theorem bit_replicate_zero (n i : ℕ) : bit (List.replicate n 0) i = false := by
  rw [bit, List.getElem?_replicate]
  split_ifs
  · exact testBit_zero i
  · rfl

/-- The bit of the index `i` is set. -/
def setBit (bytes : List UInt8) (i : ℕ) : List UInt8 := bytes.modify (i / 8) fun b => b ||| mask i

theorem length_setBit (bytes : List UInt8) (i : ℕ) : (setBit bytes i).length = bytes.length :=
  List.length_modify ..

theorem bit_setBit {bytes : List UInt8} {i : ℕ} (h : i / 8 < bytes.length) (j : ℕ) :
    bit (setBit bytes i) j = (bit bytes j || decide (i = j)) := by
  rw [bit, setBit, List.getElem?_modify, bit]
  by_cases hbyte : i / 8 = j / 8
  · have hget := List.getElem?_eq_getElem (hbyte ▸ h)
    have hij : i % 8 = j % 8 ↔ i = j := by omega
    rw [hget]
    simp only [Option.map_eq_map, Option.map_some, Option.any_some, if_pos hbyte, testBit_or_mask,
      hij]
  · have hij : i ≠ j := by
      rintro rfl
      exact hbyte rfl
    simp [hbyte, hij]

/-- The bits with an index in the list are set where they are in `bits`. -/
def packFrom (bits : List Bool) (bytes : List UInt8) (indices : List ℕ) : List UInt8 :=
  indices.foldl (fun bytes i => if bits[i]? = some true then setBit bytes i else bytes) bytes

/-- The bytes of a list of bits, filled up with zeros. -/
def pack (bits : List Bool) : List UInt8 :=
  packFrom bits (List.replicate ((bits.length + 7) / 8) 0) (List.range bits.length)

variable {bits : List Bool} {bytes : List UInt8} {indices : List ℕ}

theorem length_packFrom (bits : List Bool) (bytes : List UInt8) (indices : List ℕ) :
    (packFrom bits bytes indices).length = bytes.length := by
  induction indices generalizing bytes with
  | nil => rfl
  | cons i indices ih =>
    rw [packFrom, List.foldl_cons, ← packFrom, ih]
    split_ifs
    · exact length_setBit bytes i
    · rfl

theorem bit_packFrom (h : ∀ i ∈ indices, i / 8 < bytes.length) (j : ℕ) :
    bit (packFrom bits bytes indices) j = true ↔
      bit bytes j = true ∨ j ∈ indices ∧ bits[j]? = some true := by
  induction indices generalizing bytes with
  | nil => simp [packFrom]
  | cons i indices ih =>
    obtain ⟨hi, hrest⟩ := List.forall_mem_cons.mp h
    rw [packFrom, List.foldl_cons, ← packFrom, List.mem_cons]
    split_ifs with hset
    · rw [ih (by rwa [length_setBit]), bit_setBit hi, Bool.or_eq_true, decide_eq_true_iff, or_assoc]
      apply or_congr_right
      constructor
      · rintro (rfl | ⟨hj, hbit⟩)
        · exact ⟨Or.inl rfl, hset⟩
        · exact ⟨Or.inr hj, hbit⟩
      · rintro ⟨rfl | hj, hbit⟩
        · exact Or.inl rfl
        · exact Or.inr ⟨hj, hbit⟩
    · rw [ih hrest]
      apply or_congr_right
      constructor
      · exact fun ⟨hj, hbit⟩ => ⟨Or.inr hj, hbit⟩
      · rintro ⟨rfl | hj, hbit⟩
        · exact absurd hbit hset
        · exact ⟨hj, hbit⟩

theorem length_pack (bits : List Bool) : (pack bits).length = (bits.length + 7) / 8 := by
  rw [pack, length_packFrom, List.length_replicate]

theorem bit_pack (bits : List Bool) (j : ℕ) : bit (pack bits) j = true ↔ bits[j]? = some true := by
  rw [pack, bit_packFrom, bit_replicate_zero, List.mem_range]
  · constructor
    · rintro (h | ⟨-, hbit⟩)
      · cases h
      · exact hbit
    · intro hbit
      exact Or.inr ⟨(List.getElem?_eq_some_iff.mp hbit).1, hbit⟩
  · intro i hi
    have hlt := List.mem_range.mp hi
    rw [List.length_replicate]
    omega

/-- The places after the last bit are not set. -/
theorem bit_pack_of_le {j : ℕ} (h : bits.length ≤ j) : bit (pack bits) j = false := by
  rw [← Bool.not_eq_true, bit_pack, List.getElem?_eq_none h]
  simp

theorem bit_pack_of_lt {j : ℕ} (h : j < bits.length) : bit (pack bits) j = bits[j] := by
  rw [Bool.eq_iff_iff, bit_pack, List.getElem?_eq_getElem h, Option.some.injEq]

/-- The bits with an index in the list are read from the bytes. -/
def unpackInto (bytes : List UInt8) (bits : List Bool) (indices : List ℕ) : List Bool :=
  indices.foldl (fun bits i => bits.set i (bit bytes i)) bits

theorem length_unpackInto (bytes : List UInt8) (bits : List Bool) (indices : List ℕ) :
    (unpackInto bytes bits indices).length = bits.length := by
  induction indices generalizing bits with
  | nil => rfl
  | cons i indices ih =>
    rw [unpackInto, List.foldl_cons, ← unpackInto, ih, List.length_set]

theorem getElem?_unpackInto_of_notMem {j : ℕ} (h : j ∉ indices) :
    (unpackInto bytes bits indices)[j]? = bits[j]? := by
  induction indices generalizing bits with
  | nil => rfl
  | cons i indices ih =>
    obtain ⟨hne, hrest⟩ := not_or.mp (mt List.mem_cons.mpr h)
    rw [unpackInto, List.foldl_cons, ← unpackInto, ih hrest, List.getElem?_set_ne (Ne.symm hne)]

theorem getElem?_unpackInto {j : ℕ} (h : j ∈ indices) (hj : j < bits.length) :
    (unpackInto bytes bits indices)[j]? = some (bit bytes j) := by
  induction indices generalizing bits with
  | nil => cases h
  | cons i indices ih =>
    rw [unpackInto, List.foldl_cons, ← unpackInto]
    by_cases hrest : j ∈ indices
    · exact ih hrest (by rwa [List.length_set])
    · obtain rfl : j = i := (List.mem_cons.mp h).resolve_right hrest
      rw [getElem?_unpackInto_of_notMem hrest, List.getElem?_set_self hj]

/-- Whatever stood there before, packed bits are read back. -/
theorem unpackInto_pack {bits before : List Bool} (h : before.length = bits.length) :
    unpackInto (pack bits) before (List.range before.length) = bits := by
  apply List.ext_getElem
  · rw [length_unpackInto, h]
  · intro j hj hj'
    have hget : (unpackInto (pack bits) before (List.range before.length))[j]? =
        some (bit (pack bits) j) :=
      getElem?_unpackInto (List.mem_range.mpr (h ▸ hj')) (h ▸ hj')
    rw [bit_pack_of_lt hj', List.getElem?_eq_getElem hj] at hget
    exact Option.some.inj hget

end PackedBits
