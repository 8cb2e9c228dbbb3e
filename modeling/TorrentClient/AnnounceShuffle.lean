import TorrentClient.CheckedOperations
import TorrentClient.HandlerOutcomes

/-!
# The shuffle of the announce tiers

Every round of `knuth_shuffle` swaps the last of the places that are left with one before it.
The random generator is asked for that place and may draw any one that the bounds admit.
-/
namespace TorrentClient
open EffectPrograms
open EffectPrograms.Task

inductive Random where
  | genRange (low high : ℕ)

@[reducible] def Random.Reply : Random → Type := fun _ => ℕ

/-- The generator draws from `low` on and below `high`. -/
def Random.Draws : (e : Random) → e.Reply → Prop
  | .genRange low high, r => low ≤ r ∧ r < high

abbrev RandomTask := Task Random Random.Reply (Fault String) Unit

/-- `rng.gen_range(low, high)` -/
def genRange (low high : ℕ) : RandomTask ℕ := do
  lift (assert (low < high))
  perform (Random.genRange low high)

variable {α : Type}

/-- `list.swap(a, b)` -/
def swap (list : List α) (a b : ℕ) : Outcome (List α) := do
  let x ← index list a
  let y ← index list b
  return (list.set a y).set b x

/-- The rounds of `knuth_shuffle`. -/
def knuthLoop (list : List α) : List ℕ → RandomTask (List α)
  | [] => return list
  | i :: rest => do
    let left ← lift (checkedSub list.length i)
    let k ← lift (checkedSub left 1)
    let r ← genRange 0 k
    let list ← lift (swap list k r)
    knuthLoop list rest

def knuthShuffle (list : List α) : RandomTask (List α) := do
  let rounds ← lift (checkedSub list.length 1)
  knuthLoop list (List.range rounds)

def shuffleAnnounceList : List (List String) → RandomTask (List (List String))
  | [] => return []
  | tier :: announceList => do
    let tier ← knuthShuffle tier
    let announceList ← shuffleAnnounceList announceList
    return tier :: announceList

variable {list list' : List α} {r : Except (Fault String) (List α × Unit)}

theorem swap_eq {a b : ℕ} (ha : a < list.length) (hb : b < list.length) :
    swap list a b = .ok ((list.set a list[b]).set b list[a]) := by
  simp only [swap, index_of_getElem? (List.getElem?_eq_getElem ha),
    index_of_getElem? (List.getElem?_eq_getElem hb)]
  rfl

theorem swap_ok {a b : ℕ} (ha : a < list.length) (hb : b < list.length) :
    ∃ list', swap list a b = .ok list' ∧ list'.Perm list ∧ list'[a]? = list[b]? ∧
      ∀ j, j ≠ a → j ≠ b → list'[j]? = list[j]? := by
  refine ⟨_, swap_eq ha hb, List.set_set_perm ha hb, ?_, fun j hja hjb => ?_⟩
  · by_cases hab : a = b
    · subst hab
      simp [ha]
    · rw [List.getElem?_set_ne (Ne.symm hab), List.getElem?_set_self ha,
        List.getElem?_eq_getElem hb]
  · rw [List.getElem?_set_ne (Ne.symm hjb), List.getElem?_set_ne (Ne.symm hja)]

/-- Equal entries are swapped for nothing. -/
theorem swap_of_eq {a b : ℕ} (ha : a < list.length) (hb : b < list.length)
    (heq : list[a]? = list[b]?) : swap list a b = .ok list := by
  have hget : list[b] = list[a] := by
    rw [List.getElem?_eq_getElem ha, List.getElem?_eq_getElem hb] at heq
    exact (Option.some.inj heq).symm
  rw [swap_eq ha hb, hget, List.set_getElem_self, ← hget, List.set_getElem_self]

/-- A round swaps the last of `m + 2` places that are left with one of those before it. -/
theorem ends_knuthLoop_succ {i m : ℕ} (hlen : list.length = i + m + 2) :
    Ends Random.Draws (knuthLoop list (List.range' i (m + 1))) () r ↔
      ∃ j ≤ m, ∃ list', swap list (m + 1) j = .ok list' ∧
        Ends Random.Draws (knuthLoop list' (List.range' (i + 1) m)) () r := by
  have hleft : checkedSub list.length i = (.ok (m + 2) : Outcome ℕ) := by
    rw [checkedSub, if_pos (by omega), hlen]
    congr 1
    omega
  have hk : checkedSub (m + 2) 1 = (.ok (m + 1) : Outcome ℕ) := rfl
  have hassert : assert (0 < m + 1) = (.ok () : Outcome Unit) := if_pos (Nat.succ_pos m)
  rw [List.range'_succ, knuthLoop, hleft, ends_lift_ok_bind, hk, ends_lift_ok_bind, genRange,
    hassert]
  refine ends_perform_bind.trans ?_
  constructor
  · rintro ⟨(j : ℕ), ⟨-, hj⟩, hends⟩
    replace hj : j < m + 1 := hj
    have hlast : m + 1 < list.length := by omega
    have hother : j < list.length := by omega
    obtain ⟨list', hswap, -⟩ := swap_ok hlast hother
    rw [hswap] at hends
    exact ⟨j, Nat.le_of_lt_succ hj, list', hswap, hends⟩
  · rintro ⟨j, hj, list', hswap, hends⟩
    refine ⟨j, ⟨Nat.zero_le j, Nat.lt_succ_of_le hj⟩, ?_⟩
    rw [hswap]
    exact hends

/-- What the rounds do to the places up to `m`. -/
structure Rearranges (m : ℕ) (list list' : List α) : Prop where
  perm : list'.Perm list
  getElem?_eq : ∀ j, m < j → list'[j]? = list[j]?
  /-- Nothing but an equal entry can stay in the place of an entry. -/
  repeats : list' = list → ∀ j, 0 < j → j ≤ m → ∃ j' < j, list[j]? = list[j']?

theorem Rearranges.swap {m j : ℕ} {list₁ : List α} (h : Rearranges m list₁ list')
    (hlen : m + 1 < list.length) (hj : j ≤ m) (hswap : swap list (m + 1) j = .ok list₁) :
    Rearranges (m + 1) list list' := by
  have hjlt : j < list.length := by omega
  obtain ⟨_, hswap', hperm, hlast, hother⟩ := swap_ok hlen hjlt
  cases hswap.symm.trans hswap'
  refine ⟨h.perm.trans hperm, fun x hx => ?_, fun hunchanged x hpos hx => ?_⟩
  · rw [h.getElem?_eq x (by omega), hother x (by omega) (by omega)]
  · have hrepeat : list[m + 1]? = list[j]? := by
      rw [← hlast, ← h.getElem?_eq (m + 1) (Nat.lt_succ_self m), hunchanged]
    cases hswap.symm.trans (swap_of_eq hlen hjlt hrepeat)
    rcases Nat.lt_or_eq_of_le hx with hlt | rfl
    · exact h.repeats hunchanged x hpos (Nat.le_of_lt_succ hlt)
    · exact ⟨j, Nat.lt_succ_of_le hj, hrepeat⟩

theorem ends_knuthLoop {i m : ℕ} (hlen : list.length = i + m + 1)
    (h : Ends Random.Draws (knuthLoop list (List.range' i m)) () r) :
    ∃ list', r = .ok (list', ()) ∧ Rearranges m list list' := by
  induction m generalizing i list with
  | zero =>
    refine ⟨list, ends_pure.mp h, List.Perm.refl _, fun j _ => rfl, fun _ j hpos hj => ?_⟩
    omega
  | succ m ih =>
    obtain ⟨j, hj, list₁, hswap, hends⟩ := (ends_knuthLoop_succ hlen).mp h
    have hlast : m + 1 < list.length := by omega
    have hother : j < list.length := by omega
    obtain ⟨_, hswap', hperm, -⟩ := swap_ok hlast hother
    cases hswap.symm.trans hswap'
    obtain ⟨list', hr, hrearranges⟩ := ih (by rw [hperm.length_eq, hlen]; omega) hends
    exact ⟨list', hr, hrearranges.swap hlast hj hswap⟩

theorem ends_knuthLoop_unchanged {i m : ℕ} (hlen : list.length = i + m + 1)
    (hall : ∀ x ∈ list, ∀ y ∈ list, x = y) :
    Ends Random.Draws (knuthLoop list (List.range' i m)) () (.ok (list, ())) := by
  induction m generalizing i with
  | zero => exact ends_pure.mpr rfl
  | succ m ih =>
    have hlast : m + 1 < list.length := by omega
    have hfirst : 0 < list.length := by omega
    have heq : list[m + 1]? = list[0]? := by
      rw [List.getElem?_eq_getElem hlast, List.getElem?_eq_getElem hfirst]
      exact congrArg some (hall _ (List.getElem_mem hlast) _ (List.getElem_mem hfirst))
    rw [ends_knuthLoop_succ hlen]
    exact ⟨0, Nat.zero_le m, list, swap_of_eq hlast hfirst heq, ih (by omega)⟩

theorem ends_knuthShuffle_nil :
    Ends Random.Draws (knuthShuffle ([] : List α)) () r ↔ r = .error .panic :=
  ends_lift_error_bind

theorem knuthShuffle_eq (hne : list ≠ []) :
    knuthShuffle list = knuthLoop list (List.range' 0 (list.length - 1)) := by
  have hsub : checkedSub list.length 1 = (.ok (list.length - 1) : Outcome ℕ) :=
    if_pos (List.length_pos_iff.mpr hne)
  rw [knuthShuffle, hsub, ← List.range_eq_range']
  rfl

theorem length_eq_of_ne_nil (hne : list ≠ []) : list.length = 0 + (list.length - 1) + 1 := by
  have := List.length_pos_iff.mpr hne
  omega

/-- Whatever is drawn, the entries of a list that is not empty are rearranged. -/
theorem ends_knuthShuffle (hne : list ≠ []) (h : Ends Random.Draws (knuthShuffle list) () r) :
    ∃ list', r = .ok (list', ()) ∧ Rearranges (list.length - 1) list list' := by
  rw [knuthShuffle_eq hne] at h
  exact ends_knuthLoop (length_eq_of_ne_nil hne) h

/-- A list is left as it is just where it has nothing but equal entries. -/
theorem ends_knuthShuffle_unchanged_iff :
    Ends Random.Draws (knuthShuffle list) () (.ok (list, ())) ↔
      list ≠ [] ∧ ∀ x ∈ list, ∀ y ∈ list, x = y := by
  constructor
  · intro h
    have hne : list ≠ [] := by
      rintro rfl
      cases ends_knuthShuffle_nil.mp h
    obtain ⟨_, hr, hrearranges⟩ := ends_knuthShuffle hne h
    cases hr
    -- every place holds what an earlier one holds, down to the first
    have hfirst (j : ℕ) (hj : j < list.length) : list[j]? = list[0]? := by
      induction j using Nat.strongRecOn with
      | ind j ih =>
        rcases Nat.eq_zero_or_pos j with rfl | hpos
        · rfl
        · obtain ⟨j', hlt, heq⟩ := hrearranges.repeats rfl j hpos (by omega)
          rw [heq, ih j' hlt (by omega)]
    refine ⟨hne, fun x hx y hy => ?_⟩
    obtain ⟨i, hi, rfl⟩ := List.getElem_of_mem hx
    obtain ⟨j, hj, rfl⟩ := List.getElem_of_mem hy
    have heq := (hfirst i hi).trans (hfirst j hj).symm
    rwa [List.getElem?_eq_getElem hi, List.getElem?_eq_getElem hj, Option.some.injEq] at heq
  · rintro ⟨hne, hall⟩
    rw [knuthShuffle_eq hne]
    exact ends_knuthLoop_unchanged (length_eq_of_ne_nil hne) hall

theorem eq_of_perm_of_forall_eq (hall : ∀ x ∈ list, ∀ y ∈ list, x = y) (h : list'.Perm list) :
    list' = list := by
  cases list with
  | nil => exact h.eq_nil
  | cons x rest =>
    have hreplicate : x :: rest = List.replicate (rest.length + 1) x :=
      List.eq_replicate_of_mem fun y hy => hall y hy x List.mem_cons_self
    rw [hreplicate] at h ⊢
    exact List.perm_replicate.mp h

theorem ends_knuthShuffle_iff (hne : list ≠ []) (hall : ∀ x ∈ list, ∀ y ∈ list, x = y) :
    Ends Random.Draws (knuthShuffle list) () r ↔ r = .ok (list, ()) := by
  constructor
  · intro h
    obtain ⟨list', rfl, hrearranges⟩ := ends_knuthShuffle hne h
    rw [eq_of_perm_of_forall_eq hall hrearranges.perm]
  · rintro rfl
    exact ends_knuthShuffle_unchanged_iff.mpr ⟨hne, hall⟩

theorem ends_shuffleAnnounceList_unchanged {tiers : List (List String)}
    (h : Ends Random.Draws (shuffleAnnounceList tiers) () (.ok (tiers, ()))) :
    ∀ tier ∈ tiers, Ends Random.Draws (knuthShuffle tier) () (.ok (tier, ())) := by
  induction tiers with
  | nil => exact List.forall_mem_nil _
  | cons tier tiers ih =>
    rw [shuffleAnnounceList, ends_bind] at h
    rcases h with ⟨tier', _, htier, h⟩ | ⟨e, -, he⟩
    · rw [ends_bind] at h
      rcases h with ⟨tiers', _, htiers, h⟩ | ⟨e, -, he⟩
      · cases ends_pure.mp h
        exact List.forall_mem_cons.mpr ⟨htier, ih htiers⟩
      · cases he
    · cases he

theorem ends_shuffleAnnounceList_iff {tiers : List (List String)}
    (hne : ∀ tier ∈ tiers, tier ≠ []) (hall : ∀ tier ∈ tiers, ∀ x ∈ tier, ∀ y ∈ tier, x = y)
    {r : Except (Fault String) (List (List String) × Unit)} :
    Ends Random.Draws (shuffleAnnounceList tiers) () r ↔ r = .ok (tiers, ()) := by
  induction tiers generalizing r with
  | nil => exact ends_pure
  | cons tier tiers ih =>
    obtain ⟨hne, hnes⟩ := List.forall_mem_cons.mp hne
    obtain ⟨hall, halls⟩ := List.forall_mem_cons.mp hall
    have htier (e : Fault String) : ¬ Ends Random.Draws (knuthShuffle tier) () (.error e) := by
      rw [ends_knuthShuffle_iff hne hall]
      rintro ⟨⟩
    have hrest (e : Fault String) :
        ¬ Ends Random.Draws (shuffleAnnounceList tiers) () (.error e) := by
      rw [ih hnes halls]
      rintro ⟨⟩
    rw [shuffleAnnounceList, ends_bind_of_ok htier]
    simp only [ends_knuthShuffle_iff hne hall, ends_bind_of_ok hrest, ih hnes halls, ends_pure,
      Except.ok.injEq, Prod.mk.injEq, and_true]
    constructor
    · rintro ⟨_, _, rfl, _, _, rfl, hr⟩
      exact hr
    · intro hr
      exact ⟨tier, (), rfl, tiers, (), rfl, hr⟩

/-- The shuffle ends in every order of the list, and in nothing else. -/
def ShufflesEvenly (list : List α) : Prop :=
  ∀ r, Ends Random.Draws (knuthShuffle list) () r ↔ ∃ list', r = .ok (list', ()) ∧ list'.Perm list

/-- Every tier ends in every order of its urls, whatever the others do. -/
def TiersShuffleEvenly (tiers : List (List String)) : Prop :=
  ∀ r, Ends Random.Draws (shuffleAnnounceList tiers) () r ↔
    ∃ tiers', r = .ok (tiers', ()) ∧ List.Forall₂ List.Perm tiers' tiers

theorem ShufflesEvenly.unchanged (h : ShufflesEvenly list) :
    list ≠ [] ∧ ∀ x ∈ list, ∀ y ∈ list, x = y :=
  ends_knuthShuffle_unchanged_iff.mp ((h _).mpr ⟨list, rfl, List.Perm.refl list⟩)

theorem shufflesEvenly_of_forall_eq (hne : list ≠ []) (hall : ∀ x ∈ list, ∀ y ∈ list, x = y) :
    ShufflesEvenly list := by
  intro r
  rw [ends_knuthShuffle_iff hne hall]
  constructor
  · rintro rfl
    exact ⟨list, rfl, List.Perm.refl list⟩
  · rintro ⟨list', rfl, hperm⟩
    rw [eq_of_perm_of_forall_eq hall hperm]

theorem tiers_eq_of_perm {tiers tiers' : List (List String)}
    (hall : ∀ tier ∈ tiers, ∀ x ∈ tier, ∀ y ∈ tier, x = y)
    (h : List.Forall₂ List.Perm tiers' tiers) : tiers' = tiers := by
  induction h with
  | nil => rfl
  | cons hperm _ ih =>
    obtain ⟨htier, htiers⟩ := List.forall_mem_cons.mp hall
    rw [eq_of_perm_of_forall_eq htier hperm, ih htiers]

theorem tiers_perm_refl (tiers : List (List String)) : List.Forall₂ List.Perm tiers tiers :=
  List.forall₂_same.mpr fun tier _ => List.Perm.refl tier

theorem tiersShuffleEvenly_iff {tiers : List (List String)} :
    TiersShuffleEvenly tiers ↔ ∀ tier ∈ tiers, tier ≠ [] ∧ ∀ x ∈ tier, ∀ y ∈ tier, x = y := by
  constructor
  · intro h tier htier
    have hends := (h _).mpr ⟨tiers, rfl, tiers_perm_refl tiers⟩
    exact ends_knuthShuffle_unchanged_iff.mp (ends_shuffleAnnounceList_unchanged hends tier htier)
  · intro h r
    have hall (tier : List String) (htier : tier ∈ tiers) := (h tier htier).2
    rw [ends_shuffleAnnounceList_iff (fun tier htier => (h tier htier).1) hall]
    constructor
    · rintro rfl
      exact ⟨tiers, rfl, tiers_perm_refl tiers⟩
    · rintro ⟨tiers', rfl, hperm⟩
      rw [tiers_eq_of_perm hall hperm]

/-- The shuffle of a list ends in every order of it just where the list has an entry and no
two different ones, and that of the announce list where this holds of every tier. -/
theorem knuthShuffle_even_iff (list : List α) (tiers : List (List String)) :
    (ShufflesEvenly list ↔ list ≠ [] ∧ ∀ x ∈ list, ∀ y ∈ list, x = y) ∧
      (TiersShuffleEvenly tiers ↔
        ∀ tier ∈ tiers, tier ≠ [] ∧ ∀ x ∈ tier, ∀ y ∈ tier, x = y) :=
  ⟨⟨ShufflesEvenly.unchanged, fun h => shufflesEvenly_of_forall_eq h.1 h.2⟩,
    tiersShuffleEvenly_iff⟩

/-- Neither of two entries stays in its place, and an empty list ends in a panic. -/
theorem knuthShuffle_two_and_none :
    ¬ Ends Random.Draws (knuthShuffle ["a", "b"]) () (.ok (["a", "b"], ())) ∧
      ¬ ShufflesEvenly ["a", "b"] ∧
      (∀ r, Ends Random.Draws (knuthShuffle ([] : List String)) () r → r = .error .panic) ∧
      ¬ ShufflesEvenly ([] : List String) := by
  have htwo : ¬ ∀ x ∈ ["a", "b"], ∀ y ∈ ["a", "b"], x = y := by decide
  exact ⟨fun h => htwo (ends_knuthShuffle_unchanged_iff.mp h).2, fun h => htwo h.unchanged.2,
    fun r => ends_knuthShuffle_nil.mp, fun h => h.unchanged.1 rfl⟩

end TorrentClient
