import TorrentClient.ValueTrees

/-!
# Readers of entries

An `EntryReader` is the body of a struct on the entries of a dictionary instead of its bytes:
it asks for names in ascending order and goes on with the entries behind those it passed.
Where the keys up to the last name are valid UTF-8 it finds what a lookup finds, and it
fails where they are not.
-/
namespace TorrentClient
open Bencode
open OrderedEntries (Ascending)

abbrev Entries := List (Bytes × Tree)

theorem sortedEntries_iff {es : Entries} : SortedEntries es ↔ ∀ e ∈ es, e.2.Sorted := by
  induction es with
  | nil => simp [SortedEntries]
  | cons e es ih => rw [SortedEntries, ih, List.forall_mem_cons]

/-- What the search for a name ends with: the value and the entries behind it, a key above the
name or the end, or a key that is not valid UTF-8. -/
inductive Located where
  | found (t : Tree) (rest : Entries)
  | missing
  | invalid

def locate (name : String) : Entries → Located
  | [] => .missing
  | (key, t) :: entries =>
    match fromUtf8 key with
    | none => .invalid
    | some k =>
      if name = k then .found t entries
      else if keyLt k name then locate name entries
      else .missing

/-- A tree by the entries of a dictionary. -/
def dictOf {α : Type} (dec : Entries → Option α) : Tree → Option α
  | .dict es => dec es
  | _ => none

abbrev EntryReader := StateT Entries Option

namespace EntryReader

variable {α β : Type}

def takeField (dec : Tree → Option α) (name : String) : EntryReader α := fun es =>
  match locate name es with
  | .found t rest => (dec t).map fun a => (a, rest)
  | _ => none

def takeOption (dec : Tree → Option α) (name : String) : EntryReader (Option α) := fun es =>
  match locate name es with
  | .found t rest => (dec t).map fun a => (some a, rest)
  | .missing => some (none, es)
  | .invalid => none

/-- Whether the first key is valid UTF-8, where there is one. -/
def nextValid : Entries → Bool
  | [] => true
  | (key, _) :: _ => (fromUtf8 key).isSome

/-- The field of a name that may come again: the next key is looked at, and an empty list is
as good as none. -/
def takeCombined (dec : Tree → Option (List α)) (name : String) :
    EntryReader (Option (List α)) := fun es =>
  match locate name es with
  | .found t rest => (dec t).bind fun list =>
      if list ≠ [] ∧ nextValid rest = true then some (some list, rest) else none
  | _ => none

/-- A tree as a struct with the fields that the reader takes. -/
def structOf (y : EntryReader α) : Tree → Option α := dictOf fun es => (y es).map Prod.fst

theorem run_bind (y : EntryReader α) (g : α → EntryReader β) (es : Entries) :
    (y >>= g) es = (y es).bind fun p => g p.1 p.2 := rfl

theorem bind_eq_some {y : EntryReader α} {g : α → EntryReader β} {es rest : Entries} {b : β} :
    (y >>= g) es = some (b, rest) ↔ ∃ a es', y es = some (a, es') ∧ g a es' = some (b, rest) := by
  rw [run_bind, Option.bind_eq_some_iff]
  constructor
  · rintro ⟨⟨a, es'⟩, hy, hg⟩
    exact ⟨a, es', hy, hg⟩
  · rintro ⟨a, es', hy, hg⟩
    exact ⟨(a, es'), hy, hg⟩

end EntryReader

/-- The entries in front of the rest have valid keys. -/
def Passed (es rest : Entries) : Prop :=
  ∃ skipped, es = skipped ++ rest ∧ ∀ e ∈ skipped, (fromUtf8 e.1).isSome = true

theorem Passed.refl (es : Entries) : Passed es es := ⟨[], rfl, nofun⟩

theorem Passed.trans {es es' es'' : Entries} (h : Passed es es') (h' : Passed es' es'') :
    Passed es es'' := by
  obtain ⟨skipped, rfl, hvalid⟩ := h
  obtain ⟨skipped', rfl, hvalid'⟩ := h'
  refine ⟨skipped ++ skipped', (List.append_assoc _ _ _).symm, ?_⟩
  intro e he
  rcases List.mem_append.mp he with he | he
  · exact hvalid e he
  · exact hvalid' e he

theorem Passed.suffix {es rest : Entries} (h : Passed es rest) : rest <:+ es := by
  obtain ⟨skipped, rfl, -⟩ := h
  exact List.suffix_append skipped rest

/-- A value is found behind smaller keys that are valid. -/
theorem locate_found {name : String} {es rest : Entries} {t : Tree}
    (h : locate name es = .found t rest) :
    ∃ skipped, es = skipped ++ (asBytes name, t) :: rest ∧
      ∀ e ∈ skipped, (fromUtf8 e.1).isSome = true ∧ e.1 < asBytes name := by
  induction es with
  | nil => cases h
  | cons e es ih =>
    obtain ⟨key, t'⟩ := e
    rw [locate] at h
    cases hk : fromUtf8 key with
    | none =>
      rw [hk] at h
      cases h
    | some k =>
      rw [hk] at h
      have hkey := fromUtf8_eq_some.mp hk
      simp only at h
      split_ifs at h with heq hlt
      · cases h
        refine ⟨[], ?_, nofun⟩
        rw [heq, hkey]
        rfl
      · obtain ⟨skipped, rfl, hskipped⟩ := ih h
        refine ⟨(key, t') :: skipped, rfl, ?_⟩
        rw [List.forall_mem_cons]
        refine ⟨⟨by rw [hk]; rfl, ?_⟩, hskipped⟩
        rw [keyLt, hkey] at hlt
        exact hlt

theorem locate_ne_invalid {es : Entries} (h : ∀ e ∈ es, (fromUtf8 e.1).isSome = true)
    (name : String) : locate name es ≠ .invalid := by
  induction es with
  | nil => nofun
  | cons e es ih =>
    obtain ⟨key, t⟩ := e
    obtain ⟨hhead, htail⟩ := List.forall_mem_cons.mp h
    obtain ⟨k, hk⟩ := Option.isSome_iff_exists.mp hhead
    rw [locate, hk]
    dsimp only
    split_ifs with heq hlt
    · nofun
    · exact ih htail
    · nofun

theorem passed_of_locate {name : String} {es rest : Entries} {t : Tree}
    (h : locate name es = .found t rest) : Passed es rest ∧ (asBytes name, t) ∈ es := by
  obtain ⟨skipped, rfl, hskipped⟩ := locate_found h
  refine ⟨⟨skipped ++ [(asBytes name, t)], by rw [List.append_assoc]; rfl, ?_⟩,
    List.mem_append_right _ List.mem_cons_self⟩
  intro e he
  rcases List.mem_append.mp he with he | he
  · exact (hskipped e he).1
  · rw [List.mem_singleton.mp he, fromUtf8_asBytes]
    rfl

/-- The name is there, and the keys below it are valid UTF-8. -/
structure ReadableTo (last : String) (es : Entries) : Prop where
  present : ∃ t, (asBytes last, t) ∈ es
  valid : ∀ e ∈ es, e.1 < asBytes last → (fromUtf8 e.1).isSome = true

theorem ReadableTo.of_passed {last : String} {es rest : Entries} (h : ReadableTo last rest)
    (hp : Passed es rest) : ReadableTo last es := by
  obtain ⟨skipped, rfl, hskipped⟩ := hp
  obtain ⟨t, ht⟩ := h.present
  refine ⟨⟨t, List.mem_append_right _ ht⟩, ?_⟩
  intro e he hlt
  rcases List.mem_append.mp he with he | he
  · exact hskipped e he
  · exact h.valid e he hlt

theorem readableTo_of_locate {name : String} {es rest : Entries} {t : Tree}
    (hs : Ascending (· < ·) es) (h : locate name es = .found t rest) : ReadableTo name es := by
  obtain ⟨-, hmem⟩ := passed_of_locate h
  obtain ⟨skipped, rfl, hskipped⟩ := locate_found h
  refine ⟨⟨t, hmem⟩, ?_⟩
  intro e he hlt
  rcases List.mem_append.mp he with he | he
  · exact (hskipped e he).1
  · rcases List.mem_cons.mp he with rfl | he
    · exact absurd hlt (List.lt_irrefl _)
    · have hbehind := (List.pairwise_cons.mp (List.pairwise_append.mp hs).2.1).1 e he
      exact absurd (List.lt_trans hlt hbehind) (List.lt_irrefl _)

/-- The entries behind a name. -/
def behind (name : String) (es : Entries) : Entries :=
  es.filter fun e => decide (asBytes name < e.1)

theorem ascending_behind {name : String} {es : Entries} (hs : Ascending (· < ·) es) :
    Ascending (· < ·) (behind name es) := hs.filter _

theorem lookup_behind {name name' : String} (h : keyLt name name') (es : Entries) :
    (behind name es).lookup (asBytes name') = es.lookup (asBytes name') := by
  induction es with
  | nil => rfl
  | cons e es ih =>
    obtain ⟨key, t⟩ := e
    rw [behind, List.filter_cons]
    by_cases hkey : asBytes name' = key
    · subst hkey
      have hbehind : decide (asBytes name < (asBytes name', t).1) = true := decide_eq_true h
      rw [if_pos hbehind, List.lookup_cons_self, List.lookup_cons_self]
    · rw [List.lookup_cons, beq_false_of_ne hkey]
      split_ifs with hlt
      · rw [List.lookup_cons, beq_false_of_ne hkey]
        exact ih
      · exact ih

theorem behind_behind {name name' : String} (h : keyLt name name') (es : Entries) :
    behind name' (behind name es) = behind name' es := by
  rw [behind, behind, behind, List.filter_filter]
  refine List.filter_congr fun e _ => ?_
  by_cases hlt : asBytes name' < e.1
  · rw [decide_eq_true hlt, decide_eq_true (List.lt_trans h hlt)]
    rfl
  · rw [decide_eq_false hlt, Bool.false_and]

theorem ReadableTo.behind {last name : String} {es : Entries} (h : ReadableTo last es)
    (hlt : keyLt name last) : ReadableTo last (behind name es) := by
  obtain ⟨t, ht⟩ := h.present
  refine ⟨⟨t, List.mem_filter.mpr ⟨ht, decide_eq_true hlt⟩⟩, ?_⟩
  intro e he
  exact h.valid e (List.mem_filter.mp he).1

/-- The end of a search that finds what a lookup found. -/
def Located.ofLookup (rest : Entries) : Option Tree → Located
  | some t => .found t rest
  | none => .missing

/-- The search finds what the lookup finds. -/
theorem locate_of_readable {last name : String} {es : Entries} (hs : Ascending (· < ·) es)
    (h : ReadableTo last es) (hle : name = last ∨ keyLt name last) :
    locate name es = Located.ofLookup (behind name es) (es.lookup (asBytes name)) := by
  induction es with
  | nil =>
    obtain ⟨t, ht⟩ := h.present
    cases ht
  | cons e es ih =>
    obtain ⟨key, t⟩ := e
    obtain ⟨hhead, htail⟩ := List.pairwise_cons.mp hs
    obtain ⟨k, rfl⟩ : ∃ k, asBytes k = key := by
      obtain ⟨t', ht'⟩ := h.present
      rcases List.mem_cons.mp ht' with heq | ht'
      · exact ⟨last, congrArg Prod.fst heq⟩
      · have hvalid := h.valid _ List.mem_cons_self (hhead _ ht')
        obtain ⟨k, hk⟩ := Option.isSome_iff_exists.mp hvalid
        exact ⟨k, fromUtf8_eq_some.mp hk⟩
    rw [locate, fromUtf8_asBytes]
    simp only
    rw [List.lookup_cons, TorrentClient.behind, List.filter_cons]
    by_cases heq : name = k
    · subst heq
      have hall : es.filter (fun e => decide (asBytes name < e.1)) = es := by
        rw [List.filter_eq_self]
        exact fun e he => decide_eq_true (hhead e he)
      rw [if_pos rfl, beq_self_eq_true, if_neg (by simp [List.lt_irrefl]), hall]
      rfl
    · rw [if_neg heq, beq_false_of_ne (asBytes_injective.ne heq)]
      split_ifs with hlt hgt hgt
      · exact absurd (List.lt_trans hlt (of_decide_eq_true hgt)) (List.lt_irrefl _)
      · have hbelow : keyLt k last := by
          rcases hle with rfl | hle
          · exact hlt
          · exact List.lt_trans hlt hle
        refine ih htail ⟨?_, fun e he => h.valid e (List.mem_cons_of_mem _ he)⟩
        obtain ⟨t', ht'⟩ := h.present
        rcases List.mem_cons.mp ht' with heq' | ht'
        · have hsame : asBytes last = asBytes k := congrArg Prod.fst heq'
          rw [keyLt, ← hsame] at hbelow
          exact absurd hbelow (List.lt_irrefl _)
        · exact ⟨t', ht'⟩
      · have habove : ∀ e ∈ es, asBytes name < e.1 := fun e he =>
          List.lt_trans (of_decide_eq_true hgt) (hhead e he)
        rw [OrderedEntries.lookup_of_forall_lt habove]
        rfl
      · rcases trichotomous_of keyLt name k with hlt' | heq' | hgt'
        · exact absurd (decide_eq_true hlt') hgt
        · exact absurd heq' heq
        · exact absurd hgt' hlt

end TorrentClient
