import TorrentClient.DecoderAdvances

/-!
# Canonical integers

`read_integer` takes an integer of the type in its numeral. It also takes a negative one whose
digits start with zeros, as the test for a leading zero only looks at the first byte: `Padded`
are the spellings that this lets through.
-/
namespace TorrentClient
open Bencode DecimalNumerals

/-- A minus sign and a zero in front of more digits. -/
def Padded (ty : IntegerType) (token : Bytes) : Prop :=
  ty.signed = true ∧ ∃ digits, token = 45 :: 48 :: digits ∧ digits ≠ [] ∧
    (∀ b ∈ digits, isDigit b = true) ∧ ty.Contains (-(value (48 :: digits) : ℤ))

variable {ty : IntegerType} {token : Bytes} {n : ℤ}

theorem accept_intNumeral (h : ty.Contains n) : ty.accept (intNumeral n) = some n := by
  rw [IntegerType.accept, intNumeral_canonical, if_neg Bool.false_ne_true, ty.parse_numeral,
    if_pos h]

theorem intNumeral_neg {m : ℕ} (h : m ≠ 0) : intNumeral (-(m : ℤ)) = 45 :: numeral m := by
  rw [intNumeral, if_pos (by omega), Int.natAbs_neg, Int.natAbs_natCast]

/-- What is accepted is the numeral of the integer, or is padded. -/
theorem numeral_or_padded (h : ty.accept token = some n) :
    ty.Contains n ∧ (token = intNumeral n ∨ Padded ty token) := by
  obtain ⟨-, hzero, hminus, hparse⟩ := IntegerType.accept_eq_some.mp h
  obtain ⟨hin, hspelled⟩ := IntegerType.parse_eq_some.mp hparse
  refine ⟨hin, ?_⟩
  obtain ⟨digits, m, rfl, hsigned, hm, rfl⟩ | ⟨m, hm, rfl⟩ := hspelled
  · obtain ⟨hne, hall, rfl⟩ := IntegerType.parseDigits_eq_some.mp hm
    by_cases hpad : digits.head? = some 48
    · obtain ⟨tail, rfl⟩ : ∃ tail, digits = 48 :: tail := ⟨_, List.eq_cons_of_mem_head? hpad⟩
      refine Or.inr ⟨hsigned, tail, rfl, ?_, (List.forall_mem_cons.mp hall).2, hin⟩
      rintro rfl
      exact hminus rfl
    · have hdigits := numeral_value hne hall fun hhead => absurd hhead hpad
      have hpos : value digits ≠ 0 := by
        intro hvalue
        rw [hvalue] at hdigits
        rw [← hdigits] at hpad
        exact hpad rfl
      exact Or.inl (by rw [intNumeral_neg hpos, hdigits])
  · obtain ⟨hne, hall, rfl⟩ := IntegerType.parseDigits_eq_some.mp hm
    exact Or.inl (by rw [intNumeral_ofNat, numeral_value hne hall hzero])

/-- A padded integer is accepted, and has another numeral. -/
theorem Padded.accepted (h : Padded ty token) :
    (∀ b ∈ token, isNumber b = true) ∧ ∃ n, ty.accept token = some n ∧ token ≠ intNumeral n := by
  obtain ⟨hsigned, digits, rfl, hne, hall, hin⟩ := h
  have hdigits : ∀ b ∈ 48 :: digits, isDigit b = true := List.forall_mem_cons.mpr ⟨rfl, hall⟩
  refine ⟨?_, -(value (48 :: digits) : ℤ), ?_, ?_⟩
  · refine List.forall_mem_cons.mpr ⟨rfl, fun b hb => ?_⟩
    rw [isNumber, hdigits b hb, Bool.or_true]
  · refine IntegerType.accept_eq_some.mpr ⟨List.cons_ne_nil _ _, ?_, ?_, ?_⟩
    · exact fun hhead => absurd (Option.some.inj hhead) (by decide)
    · exact fun heq => hne (List.cons.inj (List.cons.inj heq).2).2
    · refine IntegerType.parse_eq_some.mpr ⟨hin, Or.inl ⟨48 :: digits, _, rfl, hsigned, ?_, rfl⟩⟩
      exact IntegerType.parseDigits_eq_some.mpr ⟨List.cons_ne_nil _ _, hdigits, rfl⟩
  · intro heq
    by_cases hzero : value (48 :: digits) = 0
    · rw [hzero] at heq
      exact absurd (List.cons.inj heq).1 (by decide)
    · rw [intNumeral_neg hzero] at heq
      exact hne (numeral_of_head_zero (List.cons.inj heq).2.symm)

/-- An integer as the encoder writes it. -/
def integerBytes (n : ℤ) : Bytes := 105 :: (intNumeral n ++ [101])

/-- `read_integer` takes just the integers of the type in their numerals, and fails elsewhere. -/
def ReadsCanonically (ty : IntegerType) (d : Decoder) : Prop :=
  (∀ n d', Decoder.readInteger ty d = .ok n d' ↔ ty.Contains n ∧ d.Moves (integerBytes n) d') ∧
    ((∃ n d', Decoder.readInteger ty d = .ok n d') ∨
      ∃ e d', Decoder.readInteger ty d = .error (.err e) d')

/-- The integer in front is padded. -/
def PaddedAt (ty : IntegerType) (d : Decoder) : Prop :=
  ∃ token r, d.rest = 105 :: (token ++ 101 :: r) ∧ Padded ty token

variable {d d' : Decoder}

theorem readInteger_of_moves (hd : d.InSlice) (hin : ty.Contains n)
    (h : d.Moves (integerBytes n) d') : Decoder.readInteger ty d = .ok n d' := by
  have hread := Reads.readAccepted ty fun _ hb => isNumber_of_mem_intNumeral (i := n) hb
  rw [accept_intNumeral hin] at hread
  exact hread.ok_of_moves hd h

theorem moves_of_readInteger (hd : d.InSlice) (h : Decoder.readInteger ty d = .ok n d') :
    ty.Contains n ∧ (d.Moves (integerBytes n) d' ∨ PaddedAt ty d) := by
  have hread : Advances (Decoder.readInteger ty) d _ False := Advances.readInteger ty hd
  obtain ⟨_, hmoves, token, rfl, hall, haccept⟩ := hread.of_ok h
  obtain ⟨hin, rfl | hpadded⟩ := numeral_or_padded haccept
  · exact ⟨hin, Or.inl hmoves⟩
  · refine ⟨hin, Or.inr ⟨token, d'.rest, ?_, hpadded⟩⟩
    rw [hmoves.1, List.cons_append, List.append_assoc]
    rfl

theorem readInteger_padded (hd : d.InSlice) (h : PaddedAt ty d) :
    ∃ n d', Decoder.readInteger ty d = .ok n d' ∧ ¬ d.Moves (integerBytes n) d' := by
  obtain ⟨token, r, hrest, hpadded⟩ := h
  obtain ⟨hall, n, haccept, hne⟩ := hpadded.accepted
  have hread := Reads.readAccepted ty hall
  rw [haccept] at hread
  have hmoves : d.Moves (105 :: (token ++ [101]))
      ⟨d.position + (105 :: (token ++ [101])).length, r⟩ := by
    refine ⟨?_, rfl⟩
    rw [hrest, List.cons_append, List.append_assoc]
    rfl
  refine ⟨n, _, hread.ok_of_moves hd hmoves, fun hcanonical => hne ?_⟩
  have hbytes := List.append_cancel_right (hmoves.1.symm.trans hcanonical.1)
  exact List.append_cancel_right (List.cons.inj hbytes).2

theorem fails_or_ok (hd : d.InSlice) : (∃ n d', Decoder.readInteger ty d = .ok n d') ∨
    ∃ e d', Decoder.readInteger ty d = .error (.err e) d' := by
  have hread : Advances (Decoder.readInteger ty) d _ False := Advances.readInteger ty hd
  cases hrun : Decoder.readInteger ty d with
  | ok n d' => exact Or.inl ⟨n, d', rfl⟩
  | error e d' =>
    cases e with
    | err e => exact Or.inr ⟨e, d', rfl⟩
    | panic => exact absurd hrun fun h => hread.of_panic h

/-- Integers are read canonically where they are not padded, and then an integer has one
spelling. -/
theorem reads_canonically_iff (ty : IntegerType) {d : Decoder} (hd : d.InSlice) :
    (ReadsCanonically ty d ↔ ¬ PaddedAt ty d) ∧
    ∀ e : Decoder, e.InSlice → ¬ PaddedAt ty d → ¬ PaddedAt ty e → ∀ n d' e',
      Decoder.readInteger ty d = .ok n d' → Decoder.readInteger ty e = .ok n e' →
        ∃ bytes, d.Moves bytes d' ∧ e.Moves bytes e' := by
  refine ⟨⟨?_, ?_⟩, ?_⟩
  · intro h hpadded
    obtain ⟨n, d', hrun, hne⟩ := readInteger_padded hd hpadded
    exact hne ((h.1 n d').mp hrun).2
  · intro hpadded
    refine ⟨fun n d' => ⟨?_, fun h => readInteger_of_moves hd h.1 h.2⟩, fails_or_ok hd⟩
    intro hrun
    obtain ⟨hin, hmoves | h⟩ := moves_of_readInteger hd hrun
    · exact ⟨hin, hmoves⟩
    · exact absurd h hpadded
  · intro e he hpadded hpadded' n d' e' hrun hrun'
    refine ⟨integerBytes n, ?_, ?_⟩
    · exact (moves_of_readInteger hd hrun).2.resolve_right hpadded
    · exact (moves_of_readInteger he hrun').2.resolve_right hpadded'

/-- `i-7e` is canonical. -/
theorem reads_canonically_iff_minus : ReadsCanonically .i64 (Decoder.new [105, 45, 55, 101]) := by
  refine (reads_canonically_iff .i64 (by decide)).1.mpr ?_
  rintro ⟨_, r, hrest, -, digits, rfl, -⟩
  cases hrest

/-- `i-007e` is read as -7. -/
theorem padded_integer_accepted :
    ¬ ReadsCanonically .i64 (Decoder.new [105, 45, 48, 48, 55, 101]) := by
  intro h
  obtain ⟨-, hrest, -⟩ := (h.1 (-7) ⟨6, []⟩).mp rfl
  exact absurd hrest (by decide +kernel)

end TorrentClient
