import Mathlib.Data.Nat.Digits.Lemmas

/-!
# Decimal numerals as bytes

The ASCII numeral of a number has no leading zeros, consists of digits and is read back as
the number. The numeral of a negative integer has a minus sign in front.
-/
namespace DecimalNumerals

def digitByte (d : ℕ) : UInt8 := UInt8.ofNat (48 + d)

def isDigit (b : UInt8) : Bool := 48 ≤ b && b ≤ 57

def digitValue (b : UInt8) : ℕ := b.toNat - 48

def numeral (n : ℕ) : List UInt8 :=
  if n = 0 then [48] else ((Nat.digits 10 n).map digitByte).reverse

/-- The number that a string of digits stands for. -/
def value (bs : List UInt8) : ℕ := Nat.ofDigits 10 (bs.reverse.map digitValue)

def intNumeral (i : ℤ) : List UInt8 :=
  if i < 0 then 45 :: numeral i.natAbs else numeral i.natAbs

theorem toNat_digitByte {d : ℕ} (h : d < 10) : (digitByte d).toNat = 48 + d := by
  rw [digitByte, UInt8.toNat_ofNat']
  omega

theorem digitValue_digitByte {d : ℕ} (h : d < 10) : digitValue (digitByte d) = d := by
  rw [digitValue, toNat_digitByte h, Nat.add_sub_cancel_left]

theorem isDigit_iff {b : UInt8} : isDigit b = true ↔ 48 ≤ b.toNat ∧ b.toNat ≤ 57 := by
  rw [isDigit, Bool.and_eq_true, decide_eq_true_iff, decide_eq_true_iff, UInt8.le_iff_toNat_le,
    UInt8.le_iff_toNat_le]
  rfl

theorem isDigit_digitByte {d : ℕ} (h : d < 10) : isDigit (digitByte d) = true := by
  rw [isDigit_iff, toNat_digitByte h]
  omega

theorem isDigit_of_mem_numeral {n : ℕ} {b : UInt8} (h : b ∈ numeral n) : isDigit b = true := by
  rw [numeral] at h
  split_ifs at h with hzero
  · rw [List.mem_singleton] at h
    subst h
    rfl
  · rw [List.mem_reverse, List.mem_map] at h
    obtain ⟨d, hd, rfl⟩ := h
    exact isDigit_digitByte (Nat.digits_lt_base (by decide) hd)

theorem numeral_ne_nil (n : ℕ) : numeral n ≠ [] := by
  rw [numeral]
  split_ifs with hzero
  · exact List.cons_ne_nil _ _
  · rw [ne_eq, List.reverse_eq_nil_iff, List.map_eq_nil_iff]
    exact Nat.digits_ne_nil_iff_ne_zero.mpr hzero

theorem value_numeral (n : ℕ) : value (numeral n) = n := by
  rw [value, numeral]
  split_ifs with hzero
  · rw [hzero]
    rfl
  · have hback : ((Nat.digits 10 n).map digitByte).map digitValue = Nat.digits 10 n := by
      rw [List.map_map]
      refine (List.map_congr_left fun d hd => ?_).trans (List.map_id _)
      exact digitValue_digitByte (Nat.digits_lt_base (by decide) hd)
    rw [List.reverse_reverse, hback, Nat.ofDigits_digits]

theorem digitByte_digitValue {b : UInt8} (h : isDigit b = true) : digitByte (digitValue b) = b := by
  obtain ⟨hlo, hhi⟩ := isDigit_iff.mp h
  apply UInt8.toNat_inj.mp
  rw [toNat_digitByte (by rw [digitValue]; omega), digitValue]
  omega

/-- Digits without a leading zero are the numeral of what they stand for. -/
theorem numeral_value {bs : List UInt8} (hne : bs ≠ []) (hall : ∀ b ∈ bs, isDigit b = true)
    (hhead : bs.head? = some 48 → bs = [48]) : numeral (value bs) = bs := by
  by_cases hzero : bs = [48]
  · subst hzero
    decide
  · have hdigits : Nat.digits 10 (value bs) = bs.reverse.map digitValue := by
      apply Nat.digits_ofDigits 10 (by decide)
      · intro d hd
        obtain ⟨b, hb, rfl⟩ := List.mem_map.mp hd
        obtain ⟨hlo, hhi⟩ := isDigit_iff.mp (hall b (List.mem_reverse.mp hb))
        rw [digitValue]
        omega
      · intro hmap
        rw [List.getLast_map, List.getLast_reverse]
        obtain ⟨hlo, hhi⟩ := isDigit_iff.mp (hall _ (List.head_mem hne))
        intro hvalue
        have hbyte : bs.head hne = 48 := by
          apply UInt8.toNat_inj.mp
          rw [digitValue] at hvalue
          change (bs.head hne).toNat = 48
          omega
        exact hzero (hhead (by rw [List.head?_eq_some_head hne, hbyte]))
    have hpos : value bs ≠ 0 := by
      rw [← Nat.digits_ne_nil_iff_ne_zero (b := 10), hdigits, ne_eq, List.map_eq_nil_iff,
        List.reverse_eq_nil_iff]
      exact hne
    have hback : (bs.reverse.map digitValue).map digitByte = bs.reverse := by
      rw [List.map_map]
      refine (List.map_congr_left fun b hb => ?_).trans (List.map_id _)
      exact digitByte_digitValue (hall b (List.mem_reverse.mp hb))
    rw [numeral, if_neg hpos, hdigits, hback, List.reverse_reverse]

theorem numeral_injective : Function.Injective numeral :=
  Function.LeftInverse.injective value_numeral

/-- Only the numeral of zero starts with a zero. -/
theorem numeral_of_head_zero {n : ℕ} {bs : List UInt8} (h : numeral n = 48 :: bs) : bs = [] := by
  rw [numeral] at h
  split_ifs at h with hzero
  · exact (List.cons.inj h).2.symm
  · have hdigits : Nat.digits 10 n ≠ [] := Nat.digits_ne_nil_iff_ne_zero.mpr hzero
    have hlast := Nat.getLast_digit_ne_zero 10 hzero
    have hhead : ((Nat.digits 10 n).map digitByte).getLast (by simpa using hdigits) = 48 := by
      rw [List.getLast_eq_iff_getLast?_eq_some, ← List.head?_reverse, h]
      rfl
    rw [List.getLast_map] at hhead
    have hlt := Nat.digits_lt_base (show 1 < 10 by decide) (List.getLast_mem hdigits)
    have hbyte := congrArg UInt8.toNat hhead
    rw [toNat_digitByte hlt] at hbyte
    exact absurd (show (Nat.digits 10 n).getLast hdigits = 0 by simpa using hbyte) hlast

theorem intNumeral_ofNat (n : ℕ) : intNumeral (n : ℤ) = numeral n := by
  rw [intNumeral, if_neg (by omega), Int.natAbs_natCast]

end DecimalNumerals
