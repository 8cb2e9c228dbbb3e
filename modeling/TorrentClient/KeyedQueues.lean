import Mathlib.Data.List.Induction
import Mathlib.Data.List.Nodup
import Mathlib.Logic.Function.Basic

/-!
# First-in first-out maps

A keyed queue lists its entries in the order of their first insertion, no two of them with
the same key. It is what a map shows that keeps under each key the entry and the time of
its insertion, and gives out the oldest entry first.
-/
namespace KeyedQueues

inductive Operation (κ α : Type*) where
  | add (entry : α)
  | remove (key : κ)
  | pop
  | has (key : κ)

inductive Answer (α : Type*) where
  /-- whether the entry is new -/
  | added (fresh : Bool)
  | taken (entry : Option α)
  | found (present : Bool)

variable {κ α : Type*} {key : α → κ}

structure KeyedQueue (key : α → κ) where
  entries : List α
  nodup : (entries.map key).Nodup

namespace KeyedQueue

def empty : KeyedQueue key := ⟨[], List.nodup_nil⟩

def keys (q : KeyedQueue key) : List κ := q.entries.map key

def oldest (q : KeyedQueue key) : Option α := q.entries.head?

def pop (q : KeyedQueue key) : KeyedQueue key :=
  ⟨q.entries.tail, q.nodup.sublist ((List.tail_sublist _).map key)⟩

variable {q : KeyedQueue key} {a b : α} {k : κ}

theorem mem_keys : k ∈ q.keys ↔ ∃ a ∈ q.entries, key a = k := List.mem_map

theorem eq_of_key_eq (ha : a ∈ q.entries) (hb : b ∈ q.entries) (h : key a = key b) : a = b :=
  List.inj_on_of_nodup_map q.nodup ha hb h

theorem notMem_keys_pop (h : q.oldest = some a) : key a ∉ q.pop.keys := by
  obtain ⟨rest, hentries⟩ := List.head?_eq_some_iff.mp h
  have hnodup := q.nodup
  rw [hentries, List.map_cons, List.nodup_cons] at hnodup
  simpa only [keys, pop, hentries, List.tail_cons] using hnodup.1

section Operations

variable [DecidableEq κ]

/-- An entry with a new key comes last, any other one is dropped. -/
def add (q : KeyedQueue key) (a : α) : KeyedQueue key :=
  if h : key a ∈ q.keys then q
  else ⟨q.entries ++ [a], by
    rw [List.map_append]
    exact List.nodup_append_comm.mp (List.nodup_cons.mpr ⟨h, q.nodup⟩)⟩

def find (q : KeyedQueue key) (k : κ) : Option α := q.entries.find? fun a => key a = k

def remove (q : KeyedQueue key) (k : κ) : KeyedQueue key :=
  ⟨q.entries.filter fun a => key a ≠ k, q.nodup.sublist (List.filter_sublist.map key)⟩

def perform (q : KeyedQueue key) : Operation κ α → Answer α × KeyedQueue key
  | .add a => (.added (key a ∉ q.keys), q.add a)
  | .remove k => (.taken (q.find k), q.remove k)
  | .pop => (.taken q.oldest, q.pop)
  | .has k => (.found (k ∈ q.keys), q)

theorem add_of_mem (h : key a ∈ q.keys) : q.add a = q := dif_pos h

theorem entries_add_of_notMem (h : key a ∉ q.keys) : (q.add a).entries = q.entries ++ [a] := by
  rw [add, dif_neg h]

/-- The entry that is found under a key is the only one. -/
theorem find_eq_some_iff : q.find k = some a ↔ a ∈ q.entries ∧ key a = k := by
  constructor
  · intro h
    have hkey := List.find?_some h
    exact ⟨List.mem_of_find?_eq_some h, by simpa using hkey⟩
  · intro ⟨ha, hkey⟩
    cases h : q.find k with
    | none =>
      have := List.find?_eq_none.mp h a ha
      simp [hkey] at this
    | some b =>
      have hb := List.find?_some h
      rw [eq_of_key_eq (List.mem_of_find?_eq_some h) ha (by simpa [hkey] using hb)]

theorem notMem_keys_remove (q : KeyedQueue key) (k : κ) : k ∉ (q.remove k).keys := by
  rw [mem_keys]
  rintro ⟨a, ha, hkey⟩
  simp [remove, hkey] at ha

end Operations

end KeyedQueue

/-- Under a key stands at most one entry, with the time of its insertion. -/
abbrev Holdings (κ α : Type*) := κ → Option (ℕ × α)

namespace Holdings

/-- What an operation at the time `now` answers and leaves. -/
inductive Performs [DecidableEq κ] (key : α → κ) (now : ℕ) (held : Holdings κ α) :
    Operation κ α → Answer α → Holdings κ α → Prop where
  | add_fresh {a : α} (h : held (key a) = none) :
    Performs key now held (.add a) (.added true) (Function.update held (key a) (some (now, a)))
  | add_present {a : α} (h : held (key a) ≠ none) :
    Performs key now held (.add a) (.added false) held
  | remove (k : κ) :
    Performs key now held (.remove k) (.taken ((held k).map Prod.snd))
      (Function.update held k none)
  | pop_oldest {k : κ} {e : ℕ × α} (h : held k = some e)
    (hold : ∀ k' e', held k' = some e' → e.1 ≤ e'.1) :
    Performs key now held .pop (.taken (some e.2)) (Function.update held k none)
  | pop_empty (h : ∀ k, held k = none) : Performs key now held .pop (.taken none) held
  | has (k : κ) : Performs key now held (.has k) (.found (held k).isSome) held

/-- Operations one after another, each at its own time, and their answers. -/
inductive Runs [DecidableEq κ] (key : α → κ) :
    List (Operation κ α) → List (Answer α) → Holdings κ α → Prop where
  | nil : Runs key [] [] fun _ => none
  | snoc {ops : List (Operation κ α)} {answers : List (Answer α)} {held held' : Holdings κ α}
    {op : Operation κ α} {answer : Answer α} (run : Runs key ops answers held)
    (last : held.Performs key ops.length op answer held') :
    Runs key (ops ++ [op]) (answers ++ [answer]) held'

/-- The map holds just these entries, inserted one after another before `now`. -/
structure Stamped (key : α → κ) (held : Holdings κ α) (now : ℕ) (stamped : List (ℕ × α)) :
    Prop where
  ascending : stamped.Pairwise fun e e' => e.1 < e'.1
  past : ∀ e ∈ stamped, e.1 < now
  held_iff : ∀ k e, held k = some e ↔ e ∈ stamped ∧ key e.2 = k

/-- The entries of the map, the first inserted first. -/
def Lists (key : α → κ) (held : Holdings κ α) (now : ℕ) (entries : List α) : Prop :=
  ∃ stamped, held.Stamped key now stamped ∧ stamped.map Prod.snd = entries

variable {held : Holdings κ α} {now : ℕ} {stamped : List (ℕ × α)} {k : κ}

theorem Stamped.later (h : held.Stamped key now stamped) : held.Stamped key (now + 1) stamped :=
  ⟨h.ascending, fun e he => Nat.lt_succ_of_lt (h.past e he), h.held_iff⟩

theorem Stamped.eq_none_iff (h : held.Stamped key now stamped) :
    held k = none ↔ ∀ e ∈ stamped, key e.2 ≠ k := by
  rw [Option.eq_none_iff_forall_ne_some]
  constructor
  · intro hnone e he hkey
    exact hnone e ((h.held_iff k e).mpr ⟨he, hkey⟩)
  · intro hall e he
    obtain ⟨hmem, hkey⟩ := (h.held_iff k e).mp he
    exact hall e hmem hkey

variable [DecidableEq κ]

theorem Stamped.add {a : α} (h : held.Stamped key now stamped) (hnone : held (key a) = none) :
    Stamped key (Function.update held (key a) (some (now, a))) (now + 1)
      (stamped ++ [(now, a)]) := by
  refine ⟨?_, ?_, fun k e => ?_⟩
  · simpa [List.pairwise_append, h.ascending] using fun t b he => h.past (t, b) he
  · intro e he
    rcases List.mem_append.mp he with he | he
    · exact Nat.lt_succ_of_lt (h.past e he)
    · simp [List.mem_singleton.mp he]
  · by_cases hk : k = key a
    · subst hk
      have := h.eq_none_iff.mp hnone
      rw [Function.update_self, List.mem_append, List.mem_singleton, Option.some.injEq]
      constructor
      · rintro rfl
        exact ⟨Or.inr rfl, rfl⟩
      · rintro ⟨he | he, hkey⟩
        · exact absurd hkey (this e he)
        · exact he.symm
    · rw [Function.update_of_ne hk, h.held_iff, List.mem_append, List.mem_singleton]
      constructor
      · exact fun ⟨he, hkey⟩ => ⟨Or.inl he, hkey⟩
      · rintro ⟨he | rfl, hkey⟩
        · exact ⟨he, hkey⟩
        · exact absurd hkey.symm hk

theorem Stamped.remove (h : held.Stamped key now stamped) (k : κ) :
    Stamped key (Function.update held k none) now (stamped.filter fun e => key e.2 ≠ k) := by
  refine ⟨h.ascending.filter _, fun e he => h.past e (List.mem_of_mem_filter he), fun k' e => ?_⟩
  by_cases hk : k' = k
  · subst hk
    simp
  · rw [Function.update_of_ne hk, h.held_iff, List.mem_filter]
    constructor
    · exact fun ⟨he, hkey⟩ => ⟨⟨he, by simpa [hkey] using hk⟩, hkey⟩
    · exact fun ⟨⟨he, _⟩, hkey⟩ => ⟨he, hkey⟩

/-- Without its first entry a list lacks all entries with the key of that one. -/
theorem Stamped.filter_tail {e : ℕ × α} (h : held.Stamped key now (e :: stamped)) :
    (e :: stamped).filter (fun e' => key e'.2 ≠ key e.2) = stamped := by
  have hne : ∀ e' ∈ stamped, key e'.2 ≠ key e.2 := by
    intro e' he' hkey
    have hheld := (h.held_iff (key e.2) e).mpr ⟨List.mem_cons_self, rfl⟩
    have hheld' := (h.held_iff (key e.2) e').mpr ⟨List.mem_cons_of_mem _ he', hkey⟩
    obtain rfl : e = e' := Option.some.inj (hheld.symm.trans hheld')
    exact Nat.lt_irrefl _ (List.rel_of_pairwise_cons h.ascending he')
  simpa using hne

end Holdings

open Holdings

namespace KeyedQueue

variable {q : KeyedQueue key} {held : Holdings κ α} {now : ℕ}

theorem lists_eq_none_iff (h : held.Lists key now q.entries) (k : κ) :
    held k = none ↔ k ∉ q.keys := by
  obtain ⟨stamped, hst, hentries⟩ := h
  rw [hst.eq_none_iff, mem_keys, ← hentries]
  simp only [List.mem_map, exists_exists_and_eq_and, not_exists, not_and, ne_eq]

variable [DecidableEq κ]

theorem lists_isSome (h : held.Lists key now q.entries) (k : κ) :
    (held k).isSome = decide (k ∈ q.keys) := by
  rw [Bool.eq_iff_iff, decide_eq_true_iff, ← not_iff_not, ← lists_eq_none_iff h]
  simp

theorem lists_map_snd (h : held.Lists key now q.entries) (k : κ) :
    (held k).map Prod.snd = q.find k := by
  obtain ⟨stamped, hst, hentries⟩ := h
  ext a
  rw [find_eq_some_iff, ← hentries, Option.map_eq_some_iff, List.mem_map]
  constructor
  · rintro ⟨e, he, rfl⟩
    obtain ⟨hmem, hkey⟩ := (hst.held_iff k e).mp he
    exact ⟨⟨e, hmem, rfl⟩, hkey⟩
  · rintro ⟨⟨e, he, rfl⟩, hkey⟩
    exact ⟨e, (hst.held_iff k e).mpr ⟨he, hkey⟩, rfl⟩

theorem add_simulates (h : held.Lists key now q.entries) (a : α) :
    ∃ held', held.Performs key now (.add a) (.added (key a ∉ q.keys)) held' ∧
      held'.Lists key (now + 1) (q.add a).entries := by
  have hnone := lists_eq_none_iff h (key a)
  obtain ⟨stamped, hst, hentries⟩ := h
  by_cases hmem : key a ∈ q.keys
  · refine ⟨held, ?_, stamped, hst.later, ?_⟩
    · simpa [hmem] using Performs.add_present (by simpa [hnone] using hmem)
    · rw [hentries, add_of_mem hmem]
  · refine ⟨_, ?_, _, hst.add (hnone.mpr hmem), ?_⟩
    · simpa [hmem] using Performs.add_fresh (hnone.mpr hmem)
    · rw [entries_add_of_notMem hmem, ← hentries]
      simp

theorem remove_simulates (h : held.Lists key now q.entries) (k : κ) :
    ∃ held', held.Performs key now (.remove k) (.taken (q.find k)) held' ∧
      held'.Lists key (now + 1) (q.remove k).entries := by
  have hfind := lists_map_snd h k
  obtain ⟨stamped, hst, hentries⟩ := h
  refine ⟨Function.update held k none, ?_, _, (hst.remove k).later, ?_⟩
  · rw [← hfind]
    exact Performs.remove k
  · simp only [KeyedQueue.remove, ← hentries, List.filter_map]
    rfl

theorem pop_simulates (h : held.Lists key now q.entries) :
    ∃ held', held.Performs key now .pop (.taken q.oldest) held' ∧
      held'.Lists key (now + 1) q.pop.entries := by
  obtain ⟨stamped, hst, hentries⟩ := h
  cases stamped with
  | nil =>
    refine ⟨held, ?_, [], hst.later, ?_⟩
    · rw [oldest, ← hentries]
      exact Performs.pop_empty fun k => hst.eq_none_iff.mpr (List.forall_mem_nil _)
    · simp [pop, ← hentries]
  | cons e rest =>
    refine ⟨Function.update held (key e.2) none, ?_, rest, ?_, ?_⟩
    · rw [oldest, ← hentries]
      apply Performs.pop_oldest ((hst.held_iff (key e.2) e).mpr ⟨List.mem_cons_self, rfl⟩)
      intro k' e' he'
      rcases List.mem_cons.mp ((hst.held_iff k' e').mp he').1 with rfl | hmem
      · exact Nat.le_refl _
      · exact Nat.le_of_lt (List.rel_of_pairwise_cons hst.ascending hmem)
    · have hrest := (hst.remove (key e.2)).later
      rwa [hst.filter_tail] at hrest
    · simp [pop, ← hentries]

/-- One operation on a keyed queue is the operation on the map. -/
theorem perform_simulates (h : held.Lists key now q.entries) (op : Operation κ α) :
    ∃ held', held.Performs key now op (q.perform op).1 held' ∧
      held'.Lists key (now + 1) (q.perform op).2.entries := by
  cases op with
  | add a => exact add_simulates h a
  | remove k => exact remove_simulates h k
  | pop => exact pop_simulates h
  | has k =>
    refine ⟨held, ?_, ?_⟩
    · rw [perform, ← lists_isSome h]
      exact Performs.has k
    · obtain ⟨stamped, hst, hentries⟩ := h
      exact ⟨stamped, hst.later, hentries⟩

/-- Operations one after another from an empty queue: their answers and what is left. -/
def performAll (key : α → κ) (ops : List (Operation κ α)) :
    List (Answer α) × KeyedQueue key :=
  ops.foldl (fun (answers, q) op => (answers ++ [(q.perform op).1], (q.perform op).2)) ([], empty)

theorem performAll_snoc (ops : List (Operation κ α)) (op : Operation κ α) :
    performAll key (ops ++ [op]) =
      ((performAll key ops).1 ++ [((performAll key ops).2.perform op).1],
        ((performAll key ops).2.perform op).2) := by
  rw [performAll, List.foldl_append]
  rfl

/-- Every run of operations on keyed queues is one on maps, with the same answers. -/
theorem performAll_simulates (ops : List (Operation κ α)) :
    ∃ held, Runs key ops (performAll key ops).1 held ∧
      held.Lists key ops.length (performAll key ops).2.entries := by
  induction ops using List.reverseRecOn with
  | nil =>
    refine ⟨fun _ => none, Runs.nil, [], ⟨List.Pairwise.nil, List.forall_mem_nil _, ?_⟩, rfl⟩
    simp
  | append_singleton ops op ih =>
    obtain ⟨held, hrun, hlists⟩ := ih
    obtain ⟨held', hlast, hlists'⟩ := perform_simulates hlists op
    rw [performAll_snoc]
    refine ⟨held', hrun.snoc hlast, ?_⟩
    rwa [List.length_append, List.length_singleton]

end KeyedQueue
end KeyedQueues
