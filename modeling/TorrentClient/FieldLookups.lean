import TorrentClient.EntryReaders

/-!
# Fields as lookups

The fields that a reader takes one after the other are those that lookups find in the
entries, where the entries can be read up to the last name. A reader that succeeds has read
them up to there.
-/
namespace TorrentClient
open Bencode
open OrderedEntries (Ascending)

variable {α β : Type}

/-- A field that has to be there. -/
def requiredField (dec : Tree → Option α) (name : String) (es : Entries) : Option α :=
  (es.lookup (asBytes name)).bind dec

/-- A field that may be absent. -/
def optionalField (dec : Tree → Option α) (name : String) (es : Entries) : Option (Option α) :=
  match es.lookup (asBytes name) with
  | some t => (dec t).map some
  | none => some none

/-- The first result is the second one where a condition holds, and nothing elsewhere. -/
def Narrows (o' o : Option α) (c : Prop) : Prop := ∀ a, o' = some a ↔ o = some a ∧ c

namespace Narrows

variable {o o' : Option α} {c c' : Prop}

theorem refl (o : Option α) : Narrows o o True := fun _ => (and_true _).to_iff.symm

theorem congr (h : Narrows o' o c) (hc : c ↔ c') : Narrows o' o c' := by
  intro a
  rw [h a, hc]

theorem trans {o'' : Option α} (h : Narrows o'' o' c) (h' : Narrows o' o c') :
    Narrows o'' o (c' ∧ c) := by
  intro a
  rw [h a, h' a, and_assoc]

/-- One condition after the other, neither of which depends on the results. -/
theorem bind {g g' : α → Option β} (h : Narrows o' o c) (hg : ∀ a, Narrows (g' a) (g a) c') :
    Narrows (o'.bind g') (o.bind g) (c ∧ c') := by
  intro b
  rw [Option.bind_eq_some_iff, Option.bind_eq_some_iff]
  constructor
  · rintro ⟨a, ha, hb⟩
    obtain ⟨ha, hc⟩ := (h a).mp ha
    obtain ⟨hb, hc'⟩ := (hg a b).mp hb
    exact ⟨⟨a, ha, hb⟩, hc, hc'⟩
  · rintro ⟨⟨a, ha, hb⟩, hc, hc'⟩
    exact ⟨a, (h a).mpr ⟨ha, hc⟩, (hg a b).mpr ⟨hb, hc'⟩⟩

theorem bind_right {g g' : α → Option β} (hg : ∀ a, Narrows (g' a) (g a) c) :
    Narrows (o.bind g') (o.bind g) c := (bind (refl o) hg).congr (true_and c).to_iff

theorem mapM {ι : Type} {f f' : ι → Option α} {p : ι → Prop} {xs : List ι}
    (h : ∀ x ∈ xs, Narrows (f' x) (f x) (p x)) :
    Narrows (xs.mapM f') (xs.mapM f) (∀ x ∈ xs, p x) := by
  induction xs with
  | nil => exact (refl (some [])).congr (by simp)
  | cons x xs ih =>
    obtain ⟨hhead, htail⟩ := List.forall_mem_cons.mp h
    rw [List.mapM_cons, List.mapM_cons]
    refine (bind hhead fun a => ?_).congr List.forall_mem_cons.symm
    exact (bind (ih htail) fun as => refl _).congr (and_true _).to_iff

/-- A field that is there is narrowed as its value is. -/
theorem requiredField {dec dec' : Tree → Option α} {p : Tree → Prop} {name : String} {es : Entries}
    (h : ∀ t, es.lookup (asBytes name) = some t → Narrows (dec' t) (dec t) (p t)) :
    Narrows (requiredField dec' name es) (requiredField dec name es)
      (∀ t, es.lookup (asBytes name) = some t → p t) := by
  rw [TorrentClient.requiredField, TorrentClient.requiredField]
  cases ht : es.lookup (asBytes name) with
  | none => exact (refl none).congr (by simp)
  | some t => exact (h t ht).congr (by simp)

end Narrows

namespace EntryReader

/-- The reader passes valid keys only. -/
def Passes (y : EntryReader α) : Prop := ∀ es a rest, y es = some (a, rest) → Passed es rest

/-- The reader succeeds only on entries that can be read up to the name. -/
def Reaches (last : String) (y : EntryReader α) : Prop :=
  ∀ es a rest, Ascending (· < ·) es → y es = some (a, rest) → ReadableTo last es

theorem takeField_eq_some {dec : Tree → Option α} {name : String} {es rest : Entries} {a : α}
    (h : takeField dec name es = some (a, rest)) :
    ∃ t, locate name es = .found t rest ∧ dec t = some a := by
  rw [takeField] at h
  cases hl : locate name es with
  | found t rest' =>
    rw [hl] at h
    obtain ⟨a', ha, heq⟩ := Option.map_eq_some_iff.mp h
    cases heq
    exact ⟨t, rfl, ha⟩
  | missing =>
    rw [hl] at h
    cases h
  | invalid =>
    rw [hl] at h
    cases h

theorem passes_takeField (dec : Tree → Option α) (name : String) : Passes (takeField dec name) := by
  intro es a rest h
  obtain ⟨t, hl, -⟩ := takeField_eq_some h
  exact (passed_of_locate hl).1

theorem passes_takeOption (dec : Tree → Option α) (name : String) :
    Passes (takeOption dec name) := by
  intro es a rest h
  rw [takeOption] at h
  cases hl : locate name es with
  | found t rest' =>
    rw [hl] at h
    obtain ⟨a', -, heq⟩ := Option.map_eq_some_iff.mp h
    cases heq
    exact (passed_of_locate hl).1
  | missing =>
    rw [hl] at h
    cases h
    exact Passed.refl es
  | invalid =>
    rw [hl] at h
    cases h

theorem passes_takeCombined (dec : Tree → Option (List α)) (name : String) :
    Passes (takeCombined dec name) := by
  intro es a rest h
  rw [takeCombined] at h
  cases hl : locate name es with
  | found t rest' =>
    rw [hl] at h
    obtain ⟨list, -, hlist⟩ := Option.bind_eq_some_iff.mp h
    split_ifs at hlist
    cases hlist
    exact (passed_of_locate hl).1
  | missing =>
    rw [hl] at h
    cases h
  | invalid =>
    rw [hl] at h
    cases h

theorem passes_pure (a : α) : Passes (pure a) := by
  rintro es _ _ ⟨rfl⟩
  exact Passed.refl es

theorem Passes.bind {y : EntryReader α} {g : α → EntryReader β} (hy : Passes y)
    (hg : ∀ a, Passes (g a)) : Passes (y >>= g) := by
  intro es b rest hrun
  obtain ⟨a, es', hfirst, hrest⟩ := bind_eq_some.mp hrun
  exact (hy es a es' hfirst).trans (hg a es' b rest hrest)

theorem Reaches.after {last : String} {y : EntryReader α} {g : α → EntryReader β} (hy : Passes y)
    (h : ∀ a, Reaches last (g a)) : Reaches last (y >>= g) := by
  intro es b rest hs hrun
  obtain ⟨a, es', hfirst, hrest⟩ := bind_eq_some.mp hrun
  have hpassed := hy es a es' hfirst
  exact (h a es' b rest (hs.sublist hpassed.suffix.sublist) hrest).of_passed hpassed

theorem reaches_takeField {dec : Tree → Option α} {name : String} {g : α → EntryReader β} :
    Reaches name (takeField dec name >>= g) := by
  intro es b rest hs hrun
  obtain ⟨a, es', hfirst, -⟩ := bind_eq_some.mp hrun
  obtain ⟨t, hl, -⟩ := takeField_eq_some hfirst
  exact readableTo_of_locate hs hl

/-- The entries left of a struct after the fields up to a name. -/
structure View (last : String) (es : Entries) (low : String) (cur : Entries) : Prop where
  ascending : Ascending (· < ·) cur
  readable : ReadableTo last cur
  lookup : ∀ name, keyLt low name → cur.lookup (asBytes name) = es.lookup (asBytes name)
  behind : ∀ name, keyLt low name → behind name cur = behind name es

/-- The result of a reader that goes on from what is left above one name to what is left above
another. -/
def Takes (last : String) (es : Entries) (low high : String) (y : EntryReader α) (o : Option α) :
    Prop :=
  ∀ cur, View last es low cur → ∃ rest, y cur = o.map (fun a => (a, rest)) ∧ View last es high rest

/-- The result of a reader to the last name. -/
def Gives (last : String) (es : Entries) (low : String) (y : EntryReader α) (o : Option α) : Prop :=
  ∀ cur, View last es low cur → (y cur).map Prod.fst = o

variable {last low high name : String} {es cur : Entries}

theorem View.refl (hs : Ascending (· < ·) es) (h : ReadableTo last es) : View last es low es :=
  ⟨hs, h, fun _ _ => rfl, fun _ _ => rfl⟩

theorem View.mono (h : View last es low cur) (hlow : keyLt low name) : View last es name cur :=
  ⟨h.ascending, h.readable, fun _ hlt => h.lookup _ (List.lt_trans hlow hlt),
    fun _ hlt => h.behind _ (List.lt_trans hlow hlt)⟩

theorem View.above (h : View last es low cur) (hlow : keyLt low name) (hlast : keyLt name last) :
    View last es name (TorrentClient.behind name cur) := by
  refine ⟨ascending_behind h.ascending, h.readable.behind hlast, ?_, ?_⟩
  · intro name' hlt
    rw [lookup_behind hlt, h.lookup name' (List.lt_trans hlow hlt)]
  · intro name' hlt
    rw [behind_behind hlt, h.behind name' (List.lt_trans hlow hlt)]

theorem View.locate (h : View last es low cur) (hlow : keyLt low name)
    (hle : name = last ∨ keyLt name last) :
    locate name cur =
      Located.ofLookup (TorrentClient.behind name es) (es.lookup (asBytes name)) := by
  rw [locate_of_readable h.ascending h.readable hle, h.lookup name hlow, h.behind name hlow]

theorem nextValid_of_readable (hs : Ascending (· < ·) es) (h : ReadableTo last es) :
    nextValid es = true := by
  cases es with
  | nil => rfl
  | cons e es =>
    obtain ⟨t, ht⟩ := h.present
    rcases List.mem_cons.mp ht with rfl | ht
    · rw [nextValid, fromUtf8_asBytes]
      rfl
    · exact h.valid e List.mem_cons_self ((List.pairwise_cons.mp hs).1 _ ht)

theorem View.passed (h : View last es low cur) (hlow : keyLt low name) (hlast : keyLt name last) :
    View last es name (TorrentClient.behind name es) := by
  rw [← h.behind name hlow]
  exact h.above hlow hlast

theorem takes_takeField {dec : Tree → Option α} (hlow : keyLt low name) (hlast : keyLt name last) :
    Takes last es low name (takeField dec name) (requiredField dec name es) := by
  intro cur hview
  refine ⟨TorrentClient.behind name es, ?_, hview.passed hlow hlast⟩
  rw [takeField, hview.locate hlow (Or.inr hlast), requiredField]
  cases es.lookup (asBytes name) <;> rfl

theorem takes_takeOption {dec : Tree → Option α} (hlow : keyLt low name)
    (hlast : keyLt name last) :
    Takes last es low name (takeOption dec name) (optionalField dec name es) := by
  intro cur hview
  rw [takeOption, hview.locate hlow (Or.inr hlast), optionalField]
  cases es.lookup (asBytes name) with
  | none => exact ⟨cur, rfl, hview.mono hlow⟩
  | some t =>
    refine ⟨TorrentClient.behind name es, ?_, hview.passed hlow hlast⟩
    rw [Option.map_map]
    rfl

/-- A list that is empty is refused. -/
def combinedField (dec : Tree → Option (List α)) (name : String) (es : Entries) :
    Option (Option (List α)) :=
  (requiredField dec name es).bind fun list => if list ≠ [] then some (some list) else none

theorem takes_takeCombined {dec : Tree → Option (List α)} (hlow : keyLt low name)
    (hlast : keyLt name last) :
    Takes last es low name (takeCombined dec name) (combinedField dec name es) := by
  intro cur hview
  have hpassed := hview.passed hlow hlast
  have hnext := nextValid_of_readable hpassed.ascending hpassed.readable
  refine ⟨TorrentClient.behind name es, ?_, hpassed⟩
  rw [takeCombined, hview.locate hlow (Or.inr hlast), combinedField, requiredField]
  cases es.lookup (asBytes name) with
  | none => rfl
  | some t =>
    dsimp only [Located.ofLookup, Option.bind_some]
    cases dec t with
    | none => rfl
    | some list =>
      rw [Option.bind_some, Option.bind_some, hnext]
      by_cases hlist : list = []
      · rw [if_neg fun h => h.1 hlist, if_neg fun h => h hlist]
        rfl
      · rw [if_pos ⟨hlist, rfl⟩, if_pos hlist]
        rfl

theorem takes_pure (a : α) : Takes last es low low (pure a) (some a) :=
  fun cur hview => ⟨cur, rfl, hview⟩

theorem Takes.bind {y : EntryReader α} {o : Option α} {middle : String} {f : α → EntryReader β}
    {g : α → Option β} (h : Takes last es low middle y o) (hle : middle = high ∨ keyLt middle high)
    (hf : ∀ a, Takes last es middle high (f a) (g a)) :
    Takes last es low high (y >>= f) (o.bind g) := by
  intro cur hview
  obtain ⟨rest, hy, hrest⟩ := h cur hview
  rw [run_bind, hy]
  cases o with
  | none =>
    refine ⟨rest, rfl, ?_⟩
    rcases hle with rfl | hlt
    · exact hrest
    · exact hrest.mono hlt
  | some a => exact hf a rest hrest

theorem Gives.after {y : EntryReader α} {o : Option α} {f : α → EntryReader β} {g : α → Option β}
    (h : Takes last es low high y o) (hf : ∀ a, Gives last es high (f a) (g a)) :
    Gives last es low (y >>= f) (o.bind g) := by
  intro cur hview
  obtain ⟨rest, hy, hrest⟩ := h cur hview
  rw [run_bind, hy]
  cases o with
  | none => rfl
  | some a => exact hf a rest hrest

/-- The last field of a struct. -/
theorem gives_takeLast {dec : Tree → Option α} {g : α → β} (hlow : keyLt low last) :
    Gives last es low (takeField dec last >>= fun a => pure (g a))
      ((requiredField dec last es).bind fun a => some (g a)) := by
  intro cur hview
  rw [run_bind, takeField, hview.locate hlow (Or.inl rfl), requiredField]
  cases es.lookup (asBytes last) with
  | none => rfl
  | some t =>
    dsimp only [Located.ofLookup, Option.bind_some]
    cases dec t with
    | none => rfl
    | some a => rfl

/-- A reader that reaches its last name gives what the lookups give, where it can be read up to
that name, and nothing elsewhere. -/
theorem narrows_gives {y : EntryReader α} {o : Option α} (hs : Ascending (· < ·) es)
    (hreach : Reaches last y) (hgives : Gives last es low y o) :
    Narrows ((y es).map Prod.fst) o (ReadableTo last es) := by
  intro a
  constructor
  · intro h
    obtain ⟨⟨a', rest⟩, hy, rfl⟩ := Option.map_eq_some_iff.mp h
    have hread := hreach es a' rest hs hy
    exact ⟨(hgives es (View.refl hs hread)).symm.trans h, hread⟩
  · rintro ⟨ho, hread⟩
    rw [hgives es (View.refl hs hread), ho]

end EntryReader
end TorrentClient
