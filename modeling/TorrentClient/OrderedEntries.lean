import Mathlib.Data.List.Basic
import Mathlib.Order.Defs.Unbundled

/-!
# Maps as entries with ascending keys

A map with ordered keys is the list of its entries, each key below the next. Such a list is
determined by what it finds under the keys.
-/
namespace OrderedEntries

variable {κ α : Type} {lt : κ → κ → Prop}

/-- Every key is below the keys after it. -/
def Ascending (lt : κ → κ → Prop) (entries : List (κ × α)) : Prop :=
  entries.Pairwise fun a b => lt a.1 b.1

/-- An entry takes its place among the others, or that of the entry with its key. -/
def insert [DecidableEq κ] (lt : κ → κ → Prop) [DecidableRel lt] (key : κ) (value : α) :
    List (κ × α) → List (κ × α)
  | [] => [(key, value)]
  | e :: entries =>
    if key = e.1 then (key, value) :: entries
    else if lt key e.1 then (key, value) :: e :: entries
    else e :: insert lt key value entries

section Insert

variable [DecidableEq κ] [DecidableRel lt] {key : κ} {value : α} {entries : List (κ × α)}

/-- An entry with a key above all others comes last. -/
theorem insert_of_forall_lt [IsStrictOrder κ lt] (h : ∀ e ∈ entries, lt e.1 key) :
    insert lt key value entries = entries ++ [(key, value)] := by
  induction entries with
  | nil => rfl
  | cons e entries ih =>
    have hlt := h e List.mem_cons_self
    have hne : key ≠ e.1 := by
      rintro rfl
      exact irrefl _ hlt
    have hnot : ¬ lt key e.1 := fun hgt => irrefl _ (trans_of lt hgt hlt)
    rw [insert, if_neg hne, if_neg hnot, ih fun e' he => h e' (List.mem_cons_of_mem _ he)]
    rfl

theorem mem_insert {e : κ × α} (h : e ∈ insert lt key value entries) :
    e = (key, value) ∨ e ∈ entries := by
  induction entries with
  | nil => exact Or.inl (List.mem_singleton.mp h)
  | cons e' entries ih =>
    rw [insert] at h
    split_ifs at h
    · exact (List.mem_cons.mp h).imp id (List.mem_cons_of_mem _)
    · exact List.mem_cons.mp h
    · rcases List.mem_cons.mp h with rfl | h
      · exact Or.inr List.mem_cons_self
      · exact (ih h).imp id (List.mem_cons_of_mem _)

theorem Ascending.insert [IsStrictTotalOrder κ lt] (h : Ascending lt entries) (key : κ) (value : α) :
    Ascending lt (insert lt key value entries) := by
  induction entries with
  | nil => exact List.pairwise_singleton _ _
  | cons e entries ih =>
    obtain ⟨hhead, htail⟩ := List.pairwise_cons.mp h
    rw [OrderedEntries.insert]
    split_ifs with heq hlt
    · subst heq
      exact List.pairwise_cons.mpr ⟨hhead, htail⟩
    · refine List.pairwise_cons.mpr ⟨fun e' he' => ?_, h⟩
      rcases List.mem_cons.mp he' with rfl | he'
      · exact hlt
      · exact trans_of lt hlt (hhead e' he')
    · refine List.pairwise_cons.mpr ⟨fun e' he' => ?_, ih htail⟩
      rcases mem_insert he' with rfl | he'
      · rcases trichotomous_of lt key e.1 with hlt' | heq' | hgt
        · exact absurd hlt' hlt
        · exact absurd heq' heq
        · exact hgt
      · exact hhead e' he'

theorem lookup_insert [BEq κ] [LawfulBEq κ] (key' : κ) :
    (insert lt key value entries).lookup key' =
      if key' = key then some value else entries.lookup key' := by
  by_cases hkey : key' = key
  · rw [if_pos hkey, hkey]
    induction entries with
    | nil => exact List.lookup_cons_self
    | cons e entries ih =>
      rw [insert]
      split_ifs with heq hlt
      · exact List.lookup_cons_self
      · exact List.lookup_cons_self
      · rw [List.lookup_cons, beq_false_of_ne heq]
        exact ih
  · rw [if_neg hkey]
    induction entries with
    | nil => rw [insert, List.lookup_cons, beq_false_of_ne hkey]
    | cons e entries ih =>
      rw [insert]
      split_ifs with heq hlt
      · rw [List.lookup_cons, List.lookup_cons, ← heq, beq_false_of_ne hkey]
      · rw [List.lookup_cons, beq_false_of_ne hkey]
      · rw [List.lookup_cons, List.lookup_cons, ih]

end Insert

section Lookup

theorem lookup_map {β : Type*} [BEq κ] (f : α → β) (entries : List (κ × α)) (key : κ) :
    (entries.map fun e => (e.1, f e.2)).lookup key = (entries.lookup key).map f := by
  induction entries with
  | nil => rfl
  | cons e entries ih =>
    rw [List.map_cons, List.lookup_cons, List.lookup_cons, ih]
    cases key == e.1 <;> rfl

variable [BEq κ] [LawfulBEq κ] {key : κ} {value : α} {entries : List (κ × α)}

theorem mem_of_lookup (h : entries.lookup key = some value) : (key, value) ∈ entries := by
  obtain ⟨before, after, rfl, -⟩ := List.lookup_eq_some_iff.mp h
  exact List.mem_append_right _ List.mem_cons_self

theorem lookup_eq_none_of_not_mem {names : List κ} (h : ∀ e ∈ entries, e.1 ∈ names)
    (hkey : key ∉ names) : entries.lookup key = none := by
  rw [List.lookup_eq_none_iff]
  intro e he
  rw [bne_iff_ne]
  rintro rfl
  exact hkey (h e he)

theorem lookup_of_forall_lt [IsStrictOrder κ lt] (h : ∀ e ∈ entries, lt key e.1) :
    entries.lookup key = none := by
  rw [List.lookup_eq_none_iff]
  intro e he
  rw [bne_iff_ne]
  intro heq
  exact irrefl_of lt key (heq ▸ h e he)

theorem Ascending.lookup_of_mem [IsStrictOrder κ lt] (h : Ascending lt entries)
    (hmem : (key, value) ∈ entries) : entries.lookup key = some value := by
  induction entries with
  | nil => cases hmem
  | cons e entries ih =>
    obtain ⟨hhead, htail⟩ := List.pairwise_cons.mp h
    rcases List.mem_cons.mp hmem with rfl | hmem
    · exact List.lookup_cons_self
    · have hne : key ≠ e.1 := by
        rintro rfl
        exact irrefl_of lt _ (hhead (e.1, value) hmem)
      rw [List.lookup_cons, beq_false_of_ne hne]
      exact ih htail hmem

/-- Entries with ascending keys are equal when they find the same values. -/
theorem Ascending.ext [IsStrictOrder κ lt] {entries' : List (κ × α)} (h : Ascending lt entries)
    (h' : Ascending lt entries') (hlookup : ∀ key, entries.lookup key = entries'.lookup key) :
    entries = entries' := by
  induction entries generalizing entries' with
  | nil =>
    cases entries' with
    | nil => rfl
    | cons e' entries' =>
      have hfound := hlookup e'.1
      rw [List.lookup_cons_self] at hfound
      cases hfound
  | cons e entries ih =>
    cases entries' with
    | nil =>
      have hfound := hlookup e.1
      rw [List.lookup_cons_self] at hfound
      cases hfound
    | cons e' entries' =>
      obtain ⟨hhead, htail⟩ := List.pairwise_cons.mp h
      obtain ⟨hhead', htail'⟩ := List.pairwise_cons.mp h'
      have hmem : e ∈ e' :: entries' := by
        apply mem_of_lookup
        rw [← hlookup, List.lookup_cons_self]
      have hmem' : e' ∈ e :: entries := by
        apply mem_of_lookup
        rw [hlookup, List.lookup_cons_self]
      obtain rfl : e = e' := by
        rcases List.mem_cons.mp hmem with heq | hin
        · exact heq
        · rcases List.mem_cons.mp hmem' with heq | hin'
          · exact heq.symm
          · exact absurd (trans_of lt (hhead' e hin) (hhead e' hin')) (irrefl_of lt _)
      refine congrArg (e :: ·) (ih htail htail' fun key => ?_)
      by_cases hkey : key = e.1
      · rw [hkey, lookup_of_forall_lt hhead, lookup_of_forall_lt hhead']
      · have hfound := hlookup key
        rwa [List.lookup_cons, List.lookup_cons, beq_false_of_ne hkey] at hfound

/-- Entries whose keys are among some names equal others when these have no further key and
find the same values under the names. -/
theorem Ascending.eq_iff [IsStrictOrder κ lt] {entries' : List (κ × α)} {names : List κ}
    (h : Ascending lt entries) (h' : Ascending lt entries') (hnames : ∀ e ∈ entries, e.1 ∈ names) :
    entries = entries' ↔
      (∀ e ∈ entries', e.1 ∈ names) ∧ ∀ key ∈ names, entries.lookup key = entries'.lookup key := by
  constructor
  · rintro rfl
    exact ⟨hnames, fun _ _ => rfl⟩
  · rintro ⟨hnames', hlookup⟩
    refine h.ext h' fun key => ?_
    by_cases hkey : key ∈ names
    · exact hlookup key hkey
    · rw [lookup_eq_none_of_not_mem hnames hkey, lookup_eq_none_of_not_mem hnames' hkey]

end Lookup

end OrderedEntries
