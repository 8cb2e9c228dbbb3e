import TorrentClient.DecodedItems
import TorrentClient.SkipOverflows

/-!
# Where skipping is safe

`skip_item` agrees with the decoder where there is a value. The loops that skip come to an end
on all bytes, and they panic just where the length of a string that they skip overflows.
-/
namespace TorrentClient
open Bencode DecimalNumerals
open Decoder

theorem spellEntries_eq_join (entries : List (Bytes × Item)) :
    spellEntries entries = joinEntries (entries.map fun e => (printString e.1, e.2.spell)) := by
  rw [spellEntries_eq_flatten, joinEntries, List.map_map]
  rfl

theorem Means.skippable {i : Item} {v : Value} (h : Means i v) : Skippable i.spell := by
  induction i using Item.induct generalizing v with
  | integer token =>
    cases h with
    | integer hnumber _ => exact .integer hnumber
  | string bytes => exact .string bytes
  | list items ih =>
    cases h with
    | list hitems =>
      rw [Item.spell, spellItems_eq_flatten]
      refine .list (List.forall_mem_map.mpr fun i hi => ?_)
      obtain ⟨v, hv⟩ := hitems.exists_of_mem hi
      exact ih i hi hv
  | dict entries ih =>
    cases h with
    | dict hentries =>
      rw [Item.spell, spellEntries_eq_join]
      refine .dict (List.forall_mem_map.mpr fun e _ => .string e.1)
        (List.forall_mem_map.mpr fun e he => ?_)
      obtain ⟨v, hv⟩ := hentries.exists_of_mem he
      exact ih e he hv

/-- Where there is a value `skip_item` stops where the decoder does. -/
theorem skipItem_of_decode {d d' : Decoder} {v : Value} (hd : d.InSlice)
    (h : Value.decode d = .ok v d') : skipItem d = .ok () d' := by
  obtain ⟨_, hmoves, i, hmeans, rfl⟩ := (Advances.decode hd).of_ok h
  exact (Reads.skipBytes hmeans.skippable).ok_of_moves hd hmoves

theorem skipItem_of_decode_list :
    skipItem (Decoder.new [108, 105, 45, 55, 101, 108, 101, 101, 120]) = .ok () ⟨8, [120]⟩ :=
  skipItem_of_decode (v := .list [.integer (-7), .list []]) (by decide) rfl

section Panics

variable {α β : Type} {d : Decoder}

theorem panics_bind_iff {x : DecoderM α} {f : α → DecoderM β} :
    Panics (x >>= f) d ↔ Panics x d ∨ ∃ a d', x d = .ok a d' ∧ Panics (f a) d' := by
  constructor
  · rintro ⟨d', hrun⟩
    cases hx : x d with
    | ok a d'' =>
      rw [bind_of_ok hx] at hrun
      exact Or.inr ⟨a, d'', rfl, d', hrun⟩
    | error e d'' =>
      rw [bind_of_error hx] at hrun
      cases hrun
      exact Or.inl ⟨_, hx⟩
  · rintro (h | ⟨a, d', hx, h⟩)
    · exact h.bind
    · exact Panics.of_ok hx h

theorem Advances.not_panics {x : DecoderM α} {post : α → Bytes → Prop}
    (h : Advances x d post False) : ¬ Panics x d := by
  rintro ⟨d', hrun⟩
  exact h.of_panic hrun

theorem skipFields_panics_iff (hd : d.InSlice) : Panics skipFields d ↔ OverflowsBehind d := by
  constructor
  · rintro ⟨d', hrun⟩
    exact (Advances.skipFields hd).of_panic hrun
  · rintro ⟨items, rest, hall, hrest, hover⟩
    obtain ⟨p, bytes⟩ := d
    obtain rfl : bytes = items.flatten ++ rest := hrest
    refine Panics.of_ok (get_ok _) (Panics.bind ?_)
    have hpanics := (skipItem_panics_iff (hd.behind rfl)).mpr hover
    exact skipEntries_panics (Nat.lt_trans hd (by decide)) hall
      (fun c hc => Reads.skipBytes (hall c hc)) hover.head hpanics (length_lt_bytes hall rest)

/-- The search for a name comes to the value of a key, behind entries with smaller keys. -/
inductive Comes (name key : String) : Decoder → Decoder → Prop where
  | here {p : ℕ} {rest : Bytes} : Comes name key ⟨p, printString (asBytes key) ++ rest⟩
      ⟨p + (printString (asBytes key)).length, rest⟩
  | behind {p : ℕ} {smaller : String} {value rest : Bytes} {d : Decoder} (lt : keyLt smaller name)
      (skippable : Skippable value)
      (next : Comes name key ⟨p + (printString (asBytes smaller)).length + value.length, rest⟩ d) :
      Comes name key ⟨p, printString (asBytes smaller) ++ (value ++ rest)⟩ d

variable {decode : DecoderM α} {name : String}

theorem not_panics_missing (pos : Decoder) (name : String) :
    ¬ Panics (missing pos name : DecoderM α) d := by
  rintro ⟨d', ⟨⟩⟩

theorem peekByte_panics {f : UInt8 → DecoderM β} (hd : d.InSlice)
    (h : Panics (do let b ← peekByte; f b) d) : ∃ b, Panics (f b) d := by
  obtain ⟨p, bytes⟩ := d
  rw [InSlice] at hd
  dsimp only at hd
  cases bytes with
  | nil =>
    obtain ⟨d', hrun⟩ := h
    rw [bind_of_error (peekByte_nil (by omega))] at hrun
    cases hrun
  | cons b tail =>
    obtain ⟨d', hrun⟩ := h
    rw [bind_of_ok (peekByte_cons (by omega))] at hrun
    exact ⟨b, d', hrun⟩

/-- The search panics where it skips a value whose length overflows, or where the field does. -/
theorem comes_of_panics {pos : Decoder} {fuel : ℕ} (hd : d.InSlice) (hfuel : d.rest.length < fuel)
    (h : Panics (readFieldLoop decode name pos fuel) d) :
    ∃ key d', Comes name key d d' ∧
      ((keyLt key name ∧ Overflows d') ∨ (name = key ∧ Panics decode d')) := by
  induction fuel generalizing d with
  | zero => cases hfuel
  | succ fuel ih =>
    have hread : Advances readStr d _ False := Advances.readStr hd
    rw [readFieldLoop] at h
    obtain ⟨b, h⟩ := peekByte_panics hd h
    split_ifs at h
    · exact absurd h (not_panics_missing pos name)
    · obtain hstr | ⟨key, d₁, hstr, h⟩ := panics_bind_iff.mp h
      · exact absurd hstr hread.not_panics
      · obtain ⟨_, hmoves, rfl⟩ := hread.of_ok hstr
        obtain ⟨p, rest, rfl, rfl⟩ := hmoves.ends
        have hbehind := hd.behind rfl
        split_ifs at h with heq hlt
        · exact ⟨key, _, .here, Or.inr ⟨heq, h⟩⟩
        · obtain hskip | ⟨_, d₂, hskip, h⟩ := panics_bind_iff.mp h
          · exact ⟨key, _, .here, Or.inl ⟨hlt, (skipItem_panics_iff hbehind).mp hskip⟩⟩
          · obtain ⟨value, ⟨hrest, hposition⟩, hvalue⟩ := (Advances.skipItem hbehind).of_ok hskip
            obtain ⟨p', rest'⟩ := d₂
            obtain rfl : rest = value ++ rest' := hrest
            obtain rfl : p' = _ + value.length := hposition
            have hpos := List.length_pos_of_ne_nil hvalue.ne_nil
            rw [List.length_append, List.length_append] at hfuel
            obtain ⟨key', d', hcomes, hend⟩ := ih (hbehind.behind rfl) (by dsimp only; omega) h
            exact ⟨key', d', .behind hlt hvalue hcomes, hend⟩
        · exact absurd h (not_panics_missing pos name)

/-- The search reads a key. -/
theorem readFieldLoop_panics {pos : Decoder} {fuel p : ℕ} {key : String} {rest : Bytes}
    (hd : InSlice ⟨p, printString (asBytes key) ++ rest⟩)
    (h : Panics (if name = key then decode else if keyLt key name then do
        skipItem
        readFieldLoop decode name pos fuel
      else missing pos name) ⟨p + (printString (asBytes key)).length, rest⟩) :
    Panics (readFieldLoop decode name pos (fuel + 1)) ⟨p, printString (asBytes key) ++ rest⟩ := by
  have hlt : p + (printString (asBytes key) ++ rest).length < 2 ^ 64 :=
    Nat.lt_trans hd (by decide)
  have hstr := Reads.readStr (asBytes key) p rest hlt
  rw [fromUtf8_asBytes] at hstr
  obtain ⟨b, tail, hb, hne⟩ := (Skippable.string (asBytes key)).head_append rest
  have hpeek : peekByte ⟨p, printString (asBytes key) ++ rest⟩ =
      .ok b ⟨p, printString (asBytes key) ++ rest⟩ := by
    rw [hb] at hlt ⊢
    exact peekByte_cons hlt
  rw [readFieldLoop]
  refine Panics.of_ok hpeek ?_
  rw [if_neg hne]
  exact Panics.of_ok hstr h

theorem keyLt_ne {smaller name : String} (h : keyLt smaller name) : name ≠ smaller := by
  rintro rfl
  exact List.lt_irrefl _ h

/-- The search panics at what it comes to. -/
theorem Comes.panics {key : String} {d' : Decoder} (h : Comes name key d d') (hd : d.InSlice)
    (hend : (keyLt key name ∧ Overflows d') ∨ (name = key ∧ Panics decode d')) {pos : Decoder}
    {fuel : ℕ} (hfuel : d.rest.length < fuel) :
    Panics (readFieldLoop decode name pos fuel) d := by
  obtain ⟨fuel, rfl⟩ := Nat.exists_eq_succ_of_ne_zero (Nat.ne_zero_of_lt hfuel)
  induction h generalizing fuel with
  | here =>
    apply readFieldLoop_panics hd
    obtain ⟨hlt, hover⟩ | ⟨rfl, hpanics⟩ := hend
    · rw [if_neg (keyLt_ne hlt), if_pos hlt]
      exact Panics.bind ((skipItem_panics_iff (hd.behind rfl)).mpr hover)
    · rwa [if_pos rfl]
  | @behind p smaller value rest d' hlt hvalue next ih =>
    apply readFieldLoop_panics hd
    rw [if_neg (keyLt_ne hlt), if_pos hlt]
    have hbehind : InSlice ⟨p + (printString (asBytes smaller)).length, value ++ rest⟩ := hd.behind rfl
    have hskip := Reads.skipBytes hvalue _ rest (Nat.lt_trans hbehind (by decide))
    have hpos := List.length_pos_of_ne_nil hvalue.ne_nil
    have hle : (printString (asBytes smaller) ++ (value ++ rest)).length < fuel + 1 := hfuel
    rw [List.length_append, List.length_append] at hle
    obtain ⟨fuel, rfl⟩ := Nat.exists_eq_succ_of_ne_zero (Nat.ne_zero_of_lt
      (show rest.length < fuel by omega))
    exact Panics.of_ok hskip (ih (hbehind.behind rfl) hend fuel (show rest.length < fuel + 1 by omega))

theorem readField_panics_iff (hd : d.InSlice) : Panics (readField decode name) d ↔
    ∃ key d', Comes name key d d' ∧
      ((keyLt key name ∧ Overflows d') ∨ (name = key ∧ Panics decode d')) := by
  constructor
  · exact comes_of_panics hd (Nat.lt_succ_self _)
  · rintro ⟨key, d', hcomes, hend⟩
    exact hcomes.panics hd hend (Nat.lt_succ_self _)

end Panics

/-- The call does not panic, and where it returns the cursor has moved forward in the slice. -/
def SkipsSafely (x : DecoderM Unit) (d : Decoder) : Prop :=
  ¬ Panics x d ∧ ∀ d', x d = .ok () d' →
    d.position < d'.position ∧ d'.position ≤ d.position + d.rest.length

theorem skipsSafely_iff {x : DecoderM Unit} {d : Decoder} {post : Unit → Bytes → Prop}
    (h : Advances x d post (Panics x d)) (hsome : ∀ bytes, post () bytes → bytes ≠ []) :
    SkipsSafely x d ↔ ¬ Panics x d := by
  refine and_iff_left_of_imp fun _ d' hrun => ?_
  obtain ⟨bytes, hmoves, hpost⟩ := h.of_ok hrun
  obtain ⟨p, rest, rfl, rfl⟩ := hmoves.ends
  have hpos := List.length_pos_of_ne_nil (hsome bytes hpost)
  dsimp only
  rw [List.length_append]
  omega

/-- On all bytes skipping comes to an end and moves forward, unless a length overflows. -/
theorem skips_safely_iff {d : Decoder} (hd : d.InSlice) :
    (SkipsSafely skipItem d ↔ ¬ Overflows d) ∧
    (SkipsSafely skipFields d ↔ ¬ OverflowsBehind d) ∧
    ∀ {α : Type} (decode : DecoderM α) (name : String), (¬ Panics (readField decode name) d ↔
      ¬ ∃ key d', Comes name key d d' ∧
        ((keyLt key name ∧ Overflows d') ∨ (name = key ∧ Panics decode d'))) := by
  refine ⟨?_, ?_, fun decode name => not_congr (readField_panics_iff hd)⟩
  · rw [← skipItem_panics_iff hd]
    exact skipsSafely_iff ((Advances.skipItem hd).mono (fun _ _ => id) (skipItem_panics_iff hd).mpr)
      fun _ => Skippable.ne_nil
  · rw [← skipFields_panics_iff hd]
    exact skipsSafely_iff ((Advances.skipFields hd).mono (fun _ _ => id)
      (skipFields_panics_iff hd).mpr) fun _ => id

/-- A list of a string is skipped to its end. -/
theorem skips_safely_iff_list : SkipsSafely skipItem (Decoder.new [108, 49, 58, 120, 101]) := by
  have hd : (Decoder.new [108, 49, 58, 120, 101]).InSlice := by decide
  refine (skips_safely_iff hd).1.mpr fun hover => ?_
  obtain ⟨d', hpanic⟩ := (skipItem_panics_iff hd).mpr hover
  have hrun : skipItem (Decoder.new [108, 49, 58, 120, 101]) = .ok () ⟨5, []⟩ := rfl
  cases hrun.symm.trans hpanic

/-- A string of `usize::MAX` bytes. -/
theorem longest_string_overflows :
    ¬ SkipsSafely skipItem (Decoder.new [49, 56, 52, 52, 54, 55, 52, 52, 48, 55, 51, 55, 48, 57, 53,
      53, 49, 54, 49, 53, 58]) := fun h => h.1 ⟨_, rfl⟩

end TorrentClient
