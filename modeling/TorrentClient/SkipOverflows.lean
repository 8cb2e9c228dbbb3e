import TorrentClient.DecoderAdvances
import TorrentClient.SkippedItems

/-!
# Skipping arbitrary bytes

On any bytes `skip_item` stops behind an item or fails, except that the addition of the length
of a string to the position can overflow: `Overflows` says in front of which bytes it does.
-/
namespace TorrentClient
open Bencode DecimalNumerals

/-! ### How far `skip_item` advances -/

/-- In front of such bytes the length of a string, alone or behind complete items of the lists
and dictionaries that are open, leads to a position outside `usize`. -/
inductive Overflows : Decoder → Prop where
  | string {p n : ℕ} {tail : Bytes} (length : n < 2 ^ 64)
      (outside : 2 ^ 64 ≤ p + (numeral n).length + 1 + n) : Overflows ⟨p, numeral n ++ 58 :: tail⟩
  | list {p : ℕ} {items : List Bytes} {rest : Bytes} (each : ∀ c ∈ items, Skippable c)
      (inner : Overflows ⟨p + 1 + items.flatten.length, rest⟩) :
      Overflows ⟨p, 108 :: (items.flatten ++ rest)⟩
  | dict {p : ℕ} {items : List Bytes} {rest : Bytes} (each : ∀ c ∈ items, Skippable c)
      (inner : Overflows ⟨p + 1 + items.flatten.length, rest⟩) :
      Overflows ⟨p, 100 :: (items.flatten ++ rest)⟩

/-- Somewhere in a sequence of items there is such a length. -/
def OverflowsBehind (d : Decoder) : Prop :=
  ∃ (items : List Bytes) (rest : Bytes), (∀ c ∈ items, Skippable c) ∧
    d.rest = items.flatten ++ rest ∧ Overflows ⟨d.position + items.flatten.length, rest⟩

theorem Overflows.behind {d : Decoder} (h : Overflows d) : OverflowsBehind d :=
  ⟨[], d.rest, nofun, rfl, h⟩

theorem OverflowsBehind.after {d : Decoder} {items : List Bytes} {rest : Bytes}
    (hall : ∀ c ∈ items, Skippable c) (hrest : d.rest = items.flatten ++ rest)
    (h : OverflowsBehind ⟨d.position + items.flatten.length, rest⟩) : OverflowsBehind d := by
  obtain ⟨items', rest', hall', rfl, hover⟩ := h
  refine ⟨items ++ items', rest', List.forall_mem_append.mpr ⟨hall, hall'⟩, ?_, ?_⟩
  · rw [hrest, List.flatten_append, List.append_assoc]
  · rwa [List.flatten_append, List.length_append, ← Nat.add_assoc]

theorem OverflowsBehind.list {p : ℕ} {tail : Bytes} (h : OverflowsBehind ⟨p + 1, tail⟩) :
    Overflows ⟨p, 108 :: tail⟩ := by
  obtain ⟨items, rest, hall, rfl, hover⟩ := h
  exact .list hall hover

theorem OverflowsBehind.dict {p : ℕ} {tail : Bytes} (h : OverflowsBehind ⟨p + 1, tail⟩) :
    Overflows ⟨p, 100 :: tail⟩ := by
  obtain ⟨items, rest, hall, rfl, hover⟩ := h
  exact .dict hall hover

/-- A key and a value that are skipped. -/
def SkippableEntry (c : Bytes) : Prop := ∃ k v, Skippable k ∧ Skippable v ∧ c = k ++ v

theorem entries_of_chunks {chunks : List Bytes} (h : ∀ c ∈ chunks, SkippableEntry c) :
    ∃ entries : List (Bytes × Bytes), (∀ e ∈ entries, Skippable e.1) ∧
      (∀ e ∈ entries, Skippable e.2) ∧ chunks.flatten = joinEntries entries := by
  induction chunks with
  | nil => exact ⟨[], nofun, nofun, rfl⟩
  | cons c chunks ih =>
    obtain ⟨⟨k, v, hk, hv, rfl⟩, htail⟩ := List.forall_mem_cons.mp h
    obtain ⟨entries, hkeys, hvalues, hflat⟩ := ih htail
    refine ⟨(k, v) :: entries, List.forall_mem_cons.mpr ⟨hk, hkeys⟩,
      List.forall_mem_cons.mpr ⟨hv, hvalues⟩, ?_⟩
    rw [List.flatten_cons, hflat]
    rfl

theorem items_of_chunks {chunks : List Bytes} (h : ∀ c ∈ chunks, SkippableEntry c) :
    ∃ items : List Bytes, (∀ c ∈ items, Skippable c) ∧ chunks.flatten = items.flatten := by
  induction chunks with
  | nil => exact ⟨[], nofun, rfl⟩
  | cons c chunks ih =>
    obtain ⟨⟨k, v, hk, hv, rfl⟩, htail⟩ := List.forall_mem_cons.mp h
    obtain ⟨items, hall, hflat⟩ := ih htail
    refine ⟨k :: v :: items, ?_, ?_⟩
    · exact List.forall_mem_cons.mpr ⟨hk, List.forall_mem_cons.mpr ⟨hv, hall⟩⟩
    · rw [List.flatten_cons, List.flatten_cons, List.flatten_cons, hflat, List.append_assoc]

namespace Advances
open Decoder

variable {α : Type} {d : Decoder} {panics : Prop}

theorem skipWhileLoop {predicate : UInt8 → Bool} {fuel : ℕ} (hd : d.InSlice)
    (hfuel : d.rest.length < fuel) :
    Advances (Decoder.skipWhileLoop predicate fuel) d
      (fun _ bytes => ∀ b ∈ bytes, predicate b = true) panics := by
  induction fuel generalizing d with
  | zero => cases hfuel
  | succ fuel ih =>
    rw [Decoder.skipWhileLoop]
    refine peekByte hd fun b tail hhead => ?_
    split_ifs with hb
    · refine readByte.bind ?_
      rintro c _ rest hrest rfl
      obtain ⟨rfl, rfl⟩ := List.cons.inj (hhead.symm.trans hrest)
      rw [hrest] at hfuel
      refine (ih (hd.behind hrest) (Nat.lt_of_succ_lt_succ hfuel)).mono ?_ id
      exact fun _ bytes hall => List.forall_mem_cons.mpr ⟨hb, hall⟩
    · exact pure (List.forall_mem_nil _)

theorem skipWhile (predicate : UInt8 → Bool) (hd : d.InSlice) :
    Advances (Decoder.skipWhile predicate) d (fun _ bytes => ∀ b ∈ bytes, predicate b = true)
      panics := get (skipWhileLoop hd (Nat.lt_succ_self _))

theorem skip (n : ℕ) :
    Advances (Decoder.skip n) d (fun _ bytes => bytes.length = n) (2 ^ 64 ≤ d.position + n) := by
  rw [Advances, Decoder.skip, bind_of_ok (get_ok _)]
  by_cases hstop : d.position + n < 2 ^ 64
  · rw [checkedAdd_of_lt hstop, bind_of_ok (pureStep_ok _ _)]
    by_cases hlen : d.position + d.rest.length < d.position + n
    · rw [if_pos hlen]
      trivial
    · rw [if_neg hlen]
      have htake := List.length_take_of_le (show n ≤ d.rest.length by omega)
      exact ⟨d.rest.take n, ⟨(List.take_append_drop n d.rest).symm, by rw [htake]; rfl⟩, htake⟩
  · rw [checkedAdd, if_neg hstop]
    exact Nat.le_of_not_lt hstop

/-- A loop that skips up to the end marker has skipped one chunk in each turn. -/
theorem skipLoop {step : DecoderM Unit} {passes : Bytes → Prop} {fuel : ℕ} (hd : d.InSlice)
    (hfuel : d.rest.length < fuel) (hsome : ∀ c, passes c → c ≠ [])
    (hstep : ∀ (chunks : List Bytes) rest, (∀ c ∈ chunks, passes c) → d.rest = chunks.flatten ++ rest →
      Advances step ⟨d.position + chunks.flatten.length, rest⟩ (fun _ => passes) panics) :
    Advances (Decoder.skipLoop step fuel) d
      (fun _ bytes => ∃ chunks : List Bytes, (∀ c ∈ chunks, passes c) ∧ bytes = chunks.flatten)
      panics := by
  induction fuel generalizing d with
  | zero => cases hfuel
  | succ fuel ih =>
    rw [Decoder.skipLoop]
    refine peekByte hd fun b tail _ => ?_
    split_ifs
    · exact pure ⟨[], List.forall_mem_nil _, rfl⟩
    · refine (hstep [] d.rest (List.forall_mem_nil _) rfl).bind ?_
      intro _ c rest hrest hc
      have hpos := List.length_pos_of_ne_nil (hsome c hc)
      have hlen := congrArg List.length hrest
      rw [List.length_append] at hlen
      refine (ih (hd.behind hrest) (by dsimp only at hlen ⊢; omega) ?_).mono ?_ id
      · intro chunks rest' hall hrest'
        have hnext := hstep (c :: chunks) rest' (List.forall_mem_cons.mpr ⟨hc, hall⟩) (by
          rw [List.flatten_cons, List.append_assoc, ← hrest']
          exact hrest)
        rwa [List.flatten_cons, List.length_append, ← Nat.add_assoc] at hnext
      · rintro _ _ ⟨chunks, hall, rfl⟩
        exact ⟨c :: chunks, List.forall_mem_cons.mpr ⟨hc, hall⟩, rfl⟩

/-- The entries of a dictionary, each as two items. -/
theorem skipEntries {step : DecoderM Unit} {fuel : ℕ} (hd : d.InSlice)
    (hfuel : d.rest.length < fuel)
    (hstep : ∀ d' : Decoder, d'.InSlice → d'.rest.length ≤ d.rest.length →
      Advances step d' (fun _ => Skippable) (Overflows d')) :
    Advances (Decoder.skipLoop (do step; step) fuel) d
      (fun _ bytes => ∃ entries : List (Bytes × Bytes), (∀ e ∈ entries, Skippable e.1) ∧
        (∀ e ∈ entries, Skippable e.2) ∧ bytes = joinEntries entries) (OverflowsBehind d) := by
  have hsome : ∀ c, SkippableEntry c → c ≠ [] := by
    rintro _ ⟨k, v, hk, -, rfl⟩ hnil
    exact hk.ne_nil (List.append_eq_nil_iff.mp hnil).1
  refine (skipLoop hd hfuel hsome fun chunks rest hall hrest => ?_).mono ?_ id
  · obtain ⟨items, hitems, hflat⟩ := items_of_chunks hall
    have hlen := congrArg List.length hrest
    rw [List.length_append] at hlen
    rw [hflat] at hrest hlen ⊢
    have hkey := hstep _ (hd.behind hrest) (by dsimp only; omega)
    refine (hkey.mono (fun _ _ => id) fun h => ?_).bind ?_
    · exact h.behind.after hitems hrest
    · intro _ k rest' hrest' hk
      have hlen' := congrArg List.length hrest'
      rw [List.length_append] at hlen'
      dsimp only at hlen'
      have hvalue := hstep _ ((hd.behind hrest).behind hrest') (by dsimp only; omega)
      refine hvalue.mono (fun _ v hv => ⟨k, v, hk, hv, rfl⟩) fun h => ?_
      have hone : ∀ c ∈ [k], Skippable c := List.forall_mem_singleton.mpr hk
      rw [← List.flatten_singleton (l := k)] at hrest' h
      exact OverflowsBehind.after hitems hrest (OverflowsBehind.after hone hrest' h.behind)
  · rintro _ _ ⟨chunks, hall, rfl⟩
    exact entries_of_chunks hall

theorem skipItems {step : DecoderM Unit} {fuel : ℕ} (hd : d.InSlice)
    (hfuel : d.rest.length < fuel)
    (hstep : ∀ d' : Decoder, d'.InSlice → d'.rest.length ≤ d.rest.length →
      Advances step d' (fun _ => Skippable) (Overflows d')) :
    Advances (Decoder.skipLoop step fuel) d
      (fun _ bytes => ∃ items : List Bytes, (∀ c ∈ items, Skippable c) ∧ bytes = items.flatten)
      (OverflowsBehind d) := by
  refine skipLoop hd hfuel (fun c => Skippable.ne_nil) fun items rest hall hrest => ?_
  have hlen := congrArg List.length hrest
  rw [List.length_append] at hlen
  refine (hstep _ (hd.behind hrest) (by dsimp only; omega)).mono (fun _ _ => id) fun h => ?_
  exact h.behind.after hall hrest

theorem skipItemTo {depth : ℕ} (hd : d.InSlice) (hdepth : d.rest.length < depth) :
    Advances (Decoder.skipItemTo depth) d (fun _ => Skippable) (Overflows d) := by
  induction depth generalizing d with
  | zero => cases hdepth
  | succ depth ih =>
    obtain ⟨p, rest⟩ := d
    rw [Decoder.skipItemTo]
    refine peekByte hd fun b tail hhead => ?_
    obtain rfl : rest = b :: tail := hhead
    have hbehind : InSlice ⟨p + 1, tail⟩ := hd.behind (show _ = [b] ++ tail from rfl)
    have hstep : ∀ d' : Decoder, d'.InSlice → d'.rest.length ≤ tail.length →
        Advances (Decoder.skipItemTo depth) d' (fun _ => Skippable) (Overflows d') := by
      intro d' hd' hle
      exact ih hd' (Nat.lt_of_le_of_lt hle (Nat.lt_of_succ_lt_succ hdepth))
    split_ifs with hdict hlist hinteger hdigit
    · subst hdict
      refine readByte.bind ?_
      rintro c _ rest hrest rfl
      obtain ⟨rfl, rfl⟩ := List.cons.inj (show 100 :: tail = c :: rest from hrest)
      refine get ?_
      refine ((skipEntries hbehind (Nat.lt_succ_self _) hstep).mono (fun _ _ => id)
        OverflowsBehind.dict).bind ?_
      rintro _ _ rest - ⟨entries, hkeys, hvalues, rfl⟩
      refine (expect 101).mono ?_ id
      rintro _ _ rfl
      exact .dict hkeys hvalues
    · subst hlist
      refine readByte.bind ?_
      rintro c _ rest hrest rfl
      obtain ⟨rfl, rfl⟩ := List.cons.inj (show 108 :: tail = c :: rest from hrest)
      refine get ?_
      refine ((skipItems hbehind (Nat.lt_succ_self _) hstep).mono (fun _ _ => id)
        OverflowsBehind.list).bind ?_
      rintro _ _ rest - ⟨items, hall, rfl⟩
      refine (expect 101).mono ?_ id
      rintro _ _ rfl
      exact .list hall
    · refine expect_then fun rest hrest => ?_
      refine (skipWhile isNumber (hd.behind hrest)).bind ?_
      intro _ token rest' _ hall
      refine (expect 101).mono ?_ id
      rintro _ _ rfl
      exact .integer hall
    · refine (readNumber .usize hd).bind ?_
      rintro n token rest hrest ⟨-, haccept⟩
      obtain ⟨hin, rfl⟩ := IntegerType.accept_unsigned rfl haccept
      have hlength : n.toNat < 2 ^ 64 := Reads.contains_usize.mp (by rwa [Int.toNat_of_nonneg hin.1])
      refine expect_then fun rest' hrest' => ?_
      refine (skip n.toNat).mono ?_ fun houtside => ?_
      · rintro _ bytes hbytes
        have hstring := Skippable.string bytes
        rwa [printString, hbytes] at hstring
      · obtain rfl : rest = 58 :: rest' := hrest'
        rw [show b :: tail = numeral n.toNat ++ 58 :: rest' from hrest]
        exact .string hlength houtside
    · exact fail _

theorem skipItem (hd : d.InSlice) :
    Advances Decoder.skipItem d (fun _ => Skippable) (Overflows d) :=
  get (skipItemTo hd (Nat.lt_succ_self _))

theorem skipFields (hd : d.InSlice) :
    Advances Decoder.skipFields d (fun _ bytes => bytes ≠ []) (OverflowsBehind d) := by
  refine get ((skipEntries hd (Nat.lt_succ_self _) fun d' hd' _ => skipItem hd').bind ?_)
  intro _ bytes rest _ _
  refine (expect 101).mono ?_ id
  rintro _ _ rfl hnil
  exact List.cons_ne_nil _ _ (List.append_eq_nil_iff.mp hnil).2

end Advances

/-! ### Where `skip_item` panics -/

section Panics
open Decoder

variable {α β : Type}

def Panics (x : DecoderM α) (d : Decoder) : Prop := ∃ d', x d = .error .panic d'

theorem Panics.bind {x : DecoderM α} {f : α → DecoderM β} {d : Decoder} (h : Panics x d) :
    Panics (x >>= f) d := by
  obtain ⟨d', hrun⟩ := h
  exact ⟨d', bind_of_error hrun⟩

theorem Panics.of_ok {x : DecoderM α} {f : α → DecoderM β} {d d' : Decoder} {a : α}
    (hx : x d = .ok a d') (h : Panics (f a) d') : Panics (x >>= f) d := by
  obtain ⟨d'', hrun⟩ := h
  exact ⟨d'', (bind_of_ok hx).trans hrun⟩

theorem Overflows.head {d : Decoder} (h : Overflows d) :
    ∃ b tail, d.rest = b :: tail ∧ b ≠ 101 := by
  cases h with
  | @string p n tail _ _ =>
    obtain ⟨b, digits, hn⟩ := List.exists_cons_of_ne_nil (numeral_ne_nil n)
    refine ⟨b, digits ++ 58 :: tail, by rw [hn]; rfl, ?_⟩
    rintro rfl
    cases isDigit_of_mem_numeral (hn ▸ List.mem_cons_self : (101 : UInt8) ∈ numeral n)
  | list => exact ⟨108, _, rfl, by decide⟩
  | dict => exact ⟨100, _, rfl, by decide⟩

/-- One turn of a loop that skips. -/
theorem skipLoop_turn {step : DecoderM Unit} {fuel p : ℕ} {bytes : Bytes}
    (hlt : p + bytes.length < 2 ^ 64) (hhead : ∃ b tail, bytes = b :: tail ∧ b ≠ 101)
    (h : Panics (do step; skipLoop step fuel) ⟨p, bytes⟩) :
    Panics (skipLoop step (fuel + 1)) ⟨p, bytes⟩ := by
  obtain ⟨b, tail, rfl, hb⟩ := hhead
  obtain ⟨d', hrun⟩ := h
  refine ⟨d', ?_⟩
  rw [skipLoop, bind_of_ok (peekByte_cons hlt), if_neg hb]
  exact hrun

theorem Skippable.head_append {c : Bytes} (h : Skippable c) (rest : Bytes) :
    ∃ b tail, c ++ rest = b :: tail ∧ b ≠ 101 := by
  obtain ⟨b, hb, hne⟩ := h.head?
  obtain ⟨tail, rfl⟩ : ∃ tail, c = b :: tail := ⟨_, List.eq_cons_of_mem_head? hb⟩
  exact ⟨b, tail ++ rest, rfl, hne⟩

section Loops

variable {step : DecoderM Unit} {items : List Bytes} {p fuel : ℕ} {rest : Bytes}

/-- A loop panics where its step does, behind what the step has skipped before. -/
theorem skipLoop_panics (hlt : p + (items.flatten ++ rest).length < 2 ^ 64)
    (hskip : ∀ c ∈ items, Skippable c) (hreads : ∀ c ∈ items, Reads step c (some ()))
    (hhead : ∃ b tail, rest = b :: tail ∧ b ≠ 101)
    (hpanics : Panics step ⟨p + items.flatten.length, rest⟩) (hfuel : items.length < fuel) :
    Panics (skipLoop step fuel) ⟨p, items.flatten ++ rest⟩ := by
  obtain ⟨fuel, rfl⟩ := Nat.exists_eq_succ_of_ne_zero (Nat.ne_zero_of_lt hfuel)
  induction items generalizing p fuel with
  | nil => exact skipLoop_turn hlt hhead hpanics.bind
  | cons c items ih =>
    obtain ⟨hc, hskip⟩ := List.forall_mem_cons.mp hskip
    obtain ⟨hread, hreads⟩ := List.forall_mem_cons.mp hreads
    rw [List.flatten_cons, List.append_assoc] at hlt ⊢
    rw [List.flatten_cons, List.length_append, ← Nat.add_assoc] at hpanics
    refine skipLoop_turn hlt (hc.head_append _) ?_
    have hstep : step ⟨p, c ++ (items.flatten ++ rest)⟩ = .ok () _ := hread p _ hlt
    rw [List.length_append, ← Nat.add_assoc] at hlt
    obtain ⟨fuel, rfl⟩ := Nat.exists_eq_succ_of_ne_zero (Nat.ne_zero_of_lt (Nat.lt_of_succ_lt_succ hfuel))
    exact Panics.of_ok hstep (ih hlt hskip hreads hpanics fuel (Nat.lt_of_succ_lt_succ hfuel))

/-- The loop over entries panics at a key or at a value. -/
theorem skipEntries_panics (hlt : p + (items.flatten ++ rest).length < 2 ^ 64)
    (hskip : ∀ c ∈ items, Skippable c) (hreads : ∀ c ∈ items, Reads step c (some ()))
    (hhead : ∃ b tail, rest = b :: tail ∧ b ≠ 101)
    (hpanics : Panics step ⟨p + items.flatten.length, rest⟩) (hfuel : items.length < fuel) :
    Panics (skipLoop (do step; step) fuel) ⟨p, items.flatten ++ rest⟩ := by
  obtain ⟨fuel, rfl⟩ := Nat.exists_eq_succ_of_ne_zero (Nat.ne_zero_of_lt hfuel)
  induction items using List.twoStepInduction generalizing p fuel with
  | nil => exact skipLoop_turn hlt hhead hpanics.bind.bind
  | singleton k =>
    rw [List.forall_mem_singleton] at hskip hreads
    rw [List.flatten_singleton] at hlt hpanics ⊢
    have hstep : step ⟨p, k ++ rest⟩ = .ok () _ := hreads p _ hlt
    exact skipLoop_turn hlt (hskip.head_append _) (Panics.bind (Panics.of_ok hstep hpanics))
  | cons_cons k v items ih _ =>
    rw [List.forall_mem_cons, List.forall_mem_cons] at hskip hreads
    have hflat : (k :: v :: items).flatten = (k ++ v) ++ items.flatten := by
      rw [List.flatten_cons, List.flatten_cons, List.append_assoc]
    rw [hflat, List.append_assoc] at hlt ⊢
    rw [hflat, List.length_append, ← Nat.add_assoc] at hpanics
    have hboth : Reads (do step; step) (k ++ v) (some ()) :=
      hreads.1.bind fun _ _ => hreads.2.1
    have hstep : (do step; step) ⟨p, (k ++ v) ++ (items.flatten ++ rest)⟩ = .ok () _ := hboth p _ hlt
    refine skipLoop_turn hlt (by rw [List.append_assoc]; exact hskip.1.head_append _) ?_
    rw [List.length_append, ← Nat.add_assoc] at hlt
    obtain ⟨fuel, rfl⟩ := Nat.exists_eq_succ_of_ne_zero (Nat.ne_zero_of_lt (Nat.lt_of_succ_lt_succ hfuel))
    exact Panics.of_ok hstep (ih hlt hskip.2.2 hreads.2.2 hpanics fuel
      (Nat.lt_of_succ_lt (Nat.lt_of_succ_lt_succ hfuel)))

end Loops

/-- The prefix of a string, which is read before the bytes are skipped. -/
theorem reads_prefix {n : ℕ} (hn : n < 2 ^ 64) :
    Reads (do let i ← readNumber .usize; expect 58; return i) (numeral n ++ [58]) (some (n : ℤ)) := by
  have hin := Reads.contains_usize.mpr hn
  have hread : Reads (do let i ← readNumber .usize; expect 58; return i) (intNumeral n ++ [58])
      (if IntegerType.usize.Contains n then some (n : ℤ) else none) :=
    Reads.readNumber rfl fun _ => Reads.expect_then (Reads.pure _)
  rwa [if_pos hin, intNumeral_ofNat] at hread

theorem skip_panics {p n : ℕ} {tail : Bytes} (h : 2 ^ 64 ≤ p + n) : Panics (skip n) ⟨p, tail⟩ := by
  rw [skip]
  refine Panics.of_ok (get_ok _) (Panics.bind ⟨⟨p, tail⟩, ?_⟩)
  rw [checkedAdd, if_neg (Nat.not_lt.mpr h)]
  rfl

theorem bracket_panics {loop : ℕ → DecoderM Unit} {p : ℕ} {b : UInt8} {bytes : Bytes}
    (h : Panics (loop (bytes.length + 1)) ⟨p + 1, bytes⟩) :
    Panics (do let _ ← readByte; let d ← get; loop (d.remaining + 1); expect 101)
      ⟨p, b :: bytes⟩ := by
  have hbyte : readByte ⟨p, b :: bytes⟩ = .ok b ⟨p + 1, bytes⟩ := rfl
  exact Panics.of_ok hbyte (Panics.of_ok (get_ok _) h.bind)

theorem reads_items {items : List Bytes} (hskip : ∀ c ∈ items, Skippable c) {depth : ℕ}
    (hdepth : items.flatten.length ≤ depth) :
    ∀ c ∈ items, Reads (skipItemTo depth) c (some ()) := by
  intro c hc
  exact Reads.skipItemTo (hskip c hc) ((length_le_flatten_of_mem hc).trans hdepth)

theorem length_lt_bytes {items : List Bytes} (hskip : ∀ c ∈ items, Skippable c) (rest : Bytes) :
    items.length < (items.flatten ++ rest).length + 1 := by
  have hlen := length_le_flatten fun c hc => (hskip c hc).ne_nil
  rw [List.length_append]
  omega

theorem Overflows.panics {d : Decoder} (h : Overflows d) (hd : d.InSlice) {depth : ℕ}
    (hdepth : d.rest.length < depth) : Panics (skipItemTo depth) d := by
  obtain ⟨depth, rfl⟩ := Nat.exists_eq_succ_of_ne_zero (Nat.ne_zero_of_lt hdepth)
  induction h generalizing depth with
  | @string p n tail hn houtside =>
    have hbytes : numeral n ++ 58 :: tail = numeral n ++ [58] ++ tail := by
      rw [List.append_assoc]
      rfl
    have hlt : p + (numeral n ++ 58 :: tail).length < 2 ^ 64 := Nat.lt_trans hd (by decide)
    have hprefix := reads_prefix hn p tail (by rwa [← hbytes])
    have hskip : Panics (do let i ← readNumber .usize; expect 58; skip i.toNat)
        ⟨p, numeral n ++ 58 :: tail⟩ := by
      have hassoc : (do let i ← readNumber .usize; expect 58; skip i.toNat) =
          (do let i ← readNumber .usize; expect 58; return i) >>= fun i => skip i.toNat := by
        simp only [bind_assoc, pure_bind]
      rw [hassoc, hbytes]
      refine Panics.of_ok hprefix (skip_panics ?_)
      rw [List.length_append, List.length_singleton, Int.toNat_natCast, ← Nat.add_assoc]
      exact houtside
    obtain ⟨b, digits, hb⟩ := List.exists_cons_of_ne_nil (numeral_ne_nil n)
    have hdigit : isDigit b = true := isDigit_of_mem_numeral (hb ▸ List.mem_cons_self)
    have hother : ¬ b = 100 ∧ ¬ b = 108 ∧ ¬ b = 105 := by
      refine ⟨?_, ?_, ?_⟩ <;> rintro rfl <;> cases hdigit
    rw [hb, List.cons_append] at hlt hskip ⊢
    rw [skipItemTo]
    refine Panics.of_ok (peekByte_cons hlt) ?_
    rwa [if_neg hother.1, if_neg hother.2.1, if_neg hother.2.2, if_pos hdigit]
  | @list p items rest each inner ih =>
    have hbehind : InSlice ⟨p + 1, items.flatten ++ rest⟩ :=
      hd.behind (show _ = [108] ++ (items.flatten ++ rest) from rfl)
    have hle : (items.flatten ++ rest).length < depth := Nat.lt_of_succ_lt_succ hdepth
    rw [List.length_append] at hle
    obtain ⟨depth, rfl⟩ := Nat.exists_eq_succ_of_ne_zero (Nat.ne_zero_of_lt hle)
    have hinner := ih (hbehind.behind rfl) depth (show rest.length < depth + 1 by omega)
    rw [skipItemTo]
    refine Panics.of_ok (peekByte_cons (Nat.lt_trans hd (by decide))) (bracket_panics ?_)
    exact skipLoop_panics (Nat.lt_trans hbehind (by decide)) each (reads_items each (by omega))
      inner.head hinner (length_lt_bytes each rest)
  | @dict p items rest each inner ih =>
    have hbehind : InSlice ⟨p + 1, items.flatten ++ rest⟩ :=
      hd.behind (show _ = [100] ++ (items.flatten ++ rest) from rfl)
    have hle : (items.flatten ++ rest).length < depth := Nat.lt_of_succ_lt_succ hdepth
    rw [List.length_append] at hle
    obtain ⟨depth, rfl⟩ := Nat.exists_eq_succ_of_ne_zero (Nat.ne_zero_of_lt hle)
    have hinner := ih (hbehind.behind rfl) depth (show rest.length < depth + 1 by omega)
    rw [skipItemTo]
    refine Panics.of_ok (peekByte_cons (Nat.lt_trans hd (by decide))) (bracket_panics ?_)
    exact skipEntries_panics (Nat.lt_trans hbehind (by decide)) each (reads_items each (by omega))
      inner.head hinner (length_lt_bytes each rest)

theorem skipItem_panics_iff {d : Decoder} (hd : d.InSlice) : Panics skipItem d ↔ Overflows d := by
  constructor
  · rintro ⟨d', hrun⟩
    exact (Advances.skipItem hd).of_panic hrun
  · intro h
    exact h.panics hd (Nat.lt_succ_self _)

end Panics
end TorrentClient
