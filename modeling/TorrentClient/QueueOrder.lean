import TorrentClient.KeyedQueues
import TorrentClient.OutstandingRequests

/-!
# The order of a request queue

A request queue is a keyed queue with the block of a request as its key: the calls on a new
queue have the answers of the operations on the keyed queue and leave its entries.
-/
namespace TorrentClient
open KeyedQueues

def RequestMetadata.block (r : RequestMetadata) : UInt32 × UInt32 := (r.pieceIndex, r.blockIndex)

theorem RequestMetadata.matchesBlock_eq (r : RequestMetadata) (p b : UInt32) :
    r.matchesBlock p b = decide (r.block = (p, b)) := by
  rw [Bool.eq_iff_iff, matchesBlock_iff, decide_eq_true_iff, block, Prod.mk.injEq]

namespace RequestQueue

/-- One call on the queue. -/
def perform (q : RequestQueue) :
    Operation (UInt32 × UInt32) RequestMetadata → Answer RequestMetadata × RequestQueue
  | .add r =>
    let (fresh, q) := q.add r.pieceIndex r.blockIndex r.offset r.blockLength
    (.added fresh, q)
  | .remove (pieceIndex, blockIndex) =>
    let (r, q) := q.remove pieceIndex blockIndex
    (.taken r, q)
  | .pop =>
    let (r, q) := q.pop
    (.taken r, q)
  | .has (pieceIndex, blockIndex) => (.found (q.has pieceIndex blockIndex), q)

/-- Calls one after another on a new queue: their answers and what is left. -/
def performAll (ops : List (Operation (UInt32 × UInt32) RequestMetadata)) :
    List (Answer RequestMetadata) × RequestQueue :=
  ops.foldl (fun (answers, q) op => (answers ++ [(q.perform op).1], (q.perform op).2)) ([], new)

theorem performAll_snoc (ops : List (Operation (UInt32 × UInt32) RequestMetadata))
    (op : Operation (UInt32 × UInt32) RequestMetadata) :
    performAll (ops ++ [op]) =
      ((performAll ops).1 ++ [((performAll ops).2.perform op).1],
        ((performAll ops).2.perform op).2) := by
  rw [performAll, List.foldl_append]
  rfl

section Calls

variable {q : RequestQueue} {k : KeyedQueue RequestMetadata.block} (h : q.requests = k.entries)
include h

theorem keys_eq_of_requests : q.keys = k.keys := by
  rw [keys, h]
  rfl

theorem has_iff_of_requests (p b : UInt32) : q.has p b = true ↔ (p, b) ∈ k.keys := by
  rw [has_iff_mem_keys, keys_eq_of_requests h]

theorem not_has_iff_of_requests (p b : UInt32) : q.has p b = false ↔ (p, b) ∉ k.keys := by
  rw [not_has_iff, keys_eq_of_requests h]

theorem add_eq_of_requests (r : RequestMetadata) :
    ((q.add r.pieceIndex r.blockIndex r.offset r.blockLength).1 = true ↔ r.block ∉ k.keys) ∧
      (q.add r.pieceIndex r.blockIndex r.offset r.blockLength).2.requests = (k.add r).entries := by
  by_cases hmem : r.block ∈ k.keys
  · rw [add_of_has ((has_iff_of_requests h _ _).mpr hmem), KeyedQueue.add_of_mem hmem]
    simpa [hmem] using h
  · rw [add_of_not_has ((not_has_iff_of_requests h _ _).mpr hmem),
      KeyedQueue.entries_add_of_notMem hmem]
    simpa [hmem] using h

/-- The first request for a block is the only one, so all requests for it are taken out. -/
theorem remove_eq_of_requests (p b : UInt32) :
    (q.remove p b).1 = k.find (p, b) ∧ (q.remove p b).2.requests = (k.remove (p, b)).entries := by
  by_cases hmem : (p, b) ∈ k.keys
  · obtain ⟨before, r, after, hq, hmatch, hremove⟩ :=
      remove_of_has ((has_iff_of_requests h p b).mpr hmem)
    have hblock : r.block = (p, b) := by simpa [RequestMetadata.matchesBlock_eq] using hmatch
    have hnodup := k.nodup
    rw [← h, hq, List.map_append, List.map_cons, List.nodup_middle, List.nodup_cons,
      List.mem_append, not_or, hblock, List.mem_map, List.mem_map] at hnodup
    have hother : ∀ r' ∈ before ++ after, r'.block ≠ (p, b) := by
      intro r' hr' heq
      rcases List.mem_append.mp hr' with hr' | hr'
      · exact hnodup.1.1 ⟨r', hr', heq⟩
      · exact hnodup.1.2 ⟨r', hr', heq⟩
    rw [hremove]
    constructor
    · symm
      rw [KeyedQueue.find_eq_some_iff, ← h, hq]
      exact ⟨by simp, hblock⟩
    · simp only [KeyedQueue.remove, ← h]
      rw [hq, List.filter_append, List.filter_cons_of_neg (by simp [hblock]),
        ← List.filter_append]
      exact (List.filter_eq_self.mpr fun r' hr' => by simpa using hother r' hr').symm
  · have hother : ∀ r ∈ k.entries, r.block ≠ (p, b) := by
      intro r hr heq
      exact hmem (KeyedQueue.mem_keys.mpr ⟨r, hr, heq⟩)
    rw [remove_of_not_has ((not_has_iff_of_requests h p b).mpr hmem), h]
    constructor
    · symm
      exact List.find?_eq_none.mpr fun r hr => by simpa using hother r hr
    · exact (List.filter_eq_self.mpr fun r hr => by simpa using hother r hr).symm

theorem pop_eq_of_requests : q.pop.1 = k.oldest ∧ q.pop.2.requests = k.pop.entries := by
  simp only [KeyedQueue.oldest, KeyedQueue.pop, ← h]
  rw [pop]
  split
  · next hnil => simp [hnil]
  · next hcons => simp [hcons]

theorem perform_eq_of_requests (op : Operation (UInt32 × UInt32) RequestMetadata) :
    (q.perform op).1 = (k.perform op).1 ∧ (q.perform op).2.requests = (k.perform op).2.entries := by
  cases op with
  | add r =>
    obtain ⟨hfresh, hrest⟩ := add_eq_of_requests h r
    refine ⟨congrArg Answer.added ?_, hrest⟩
    rw [Bool.eq_iff_iff]
    exact hfresh.trans (by simp)
  | remove key =>
    obtain ⟨hanswer, hrest⟩ := remove_eq_of_requests h key.1 key.2
    exact ⟨congrArg Answer.taken hanswer, hrest⟩
  | pop =>
    obtain ⟨hanswer, hrest⟩ := pop_eq_of_requests h
    exact ⟨congrArg Answer.taken hanswer, hrest⟩
  | has key =>
    refine ⟨congrArg Answer.found ?_, h⟩
    rw [Bool.eq_iff_iff]
    exact (has_iff_of_requests h key.1 key.2).trans (by simp)

end Calls

theorem performAll_eq (ops : List (Operation (UInt32 × UInt32) RequestMetadata)) :
    (performAll ops).1 = (KeyedQueue.performAll RequestMetadata.block ops).1 ∧
      (performAll ops).2.requests = (KeyedQueue.performAll RequestMetadata.block ops).2.entries := by
  induction ops using List.reverseRecOn with
  | nil => exact ⟨rfl, rfl⟩
  | append_singleton ops op ih =>
    obtain ⟨hanswer, hrest⟩ := perform_eq_of_requests ih.2 op
    rw [performAll_snoc, KeyedQueue.performAll_snoc]
    exact ⟨congrArg₂ _ ih.1 (congrArg (fun a => [a]) hanswer), hrest⟩

/-- The calls on a queue that holds no block twice. -/
structure FirstInFirstOut (q : RequestQueue) : Prop where
  nodup : (q.requests.map RequestMetadata.block).Nodup
  /-- An entry is new where its block is not in the queue, and comes last. -/
  add : ∀ r : RequestMetadata,
    ((q.add r.pieceIndex r.blockIndex r.offset r.blockLength).1 = true ↔
      ∀ r' ∈ q.requests, r'.block ≠ r.block) ∧
    (q.add r.pieceIndex r.blockIndex r.offset r.blockLength).2.requests =
      if ∀ r' ∈ q.requests, r'.block ≠ r.block then q.requests ++ [r] else q.requests
  /-- The one entry of a block is taken out, the others stay in their order. -/
  remove : ∀ p b,
    (∀ r, (q.remove p b).1 = some r ↔ r ∈ q.requests ∧ r.block = (p, b)) ∧
    (q.remove p b).2.requests = q.requests.filter (fun r => r.block ≠ (p, b)) ∧
    (q.remove p b).2.has p b = false
  /-- The oldest entry is taken out, the others stay in their order. -/
  pop : q.pop.1 = q.requests.head? ∧ q.pop.2.requests = q.requests.tail ∧
    ∀ r, q.pop.1 = some r → q.pop.2.has r.pieceIndex r.blockIndex = false
  has : ∀ p b, q.has p b = true ↔ ∃ r ∈ q.requests, r.block = (p, b)

theorem firstInFirstOut_of_requests {q : RequestQueue} {k : KeyedQueue RequestMetadata.block}
    (h : q.requests = k.entries) : q.FirstInFirstOut := by
  have hkeys {key : UInt32 × UInt32} : key ∈ k.keys ↔ ∃ r ∈ q.requests, r.block = key := by
    rw [KeyedQueue.mem_keys, h]
  constructor
  · rw [h]
    exact k.nodup
  · intro r
    obtain ⟨hfresh, hrest⟩ := add_eq_of_requests h r
    have hiff : (∀ r' ∈ q.requests, r'.block ≠ r.block) ↔ r.block ∉ k.keys := by
      simp [hkeys]
    refine ⟨hfresh.trans hiff.symm, ?_⟩
    rw [hrest]
    by_cases hmem : r.block ∈ k.keys
    · rw [if_neg (by simpa [hiff] using hmem), KeyedQueue.add_of_mem hmem, h]
    · rw [if_pos (hiff.mpr hmem), KeyedQueue.entries_add_of_notMem hmem, h]
  · intro p b
    obtain ⟨hfind, hrest⟩ := remove_eq_of_requests h p b
    refine ⟨fun r => ?_, ?_, ?_⟩
    · rw [hfind, KeyedQueue.find_eq_some_iff, h]
    · rw [hrest, h]
      rfl
    · rw [not_has_iff_of_requests hrest]
      exact KeyedQueue.notMem_keys_remove k (p, b)
  · obtain ⟨holdest, hrest⟩ := pop_eq_of_requests h
    refine ⟨by rw [holdest, h]; rfl, by rw [hrest, h]; rfl, fun r hr => ?_⟩
    rw [not_has_iff_of_requests hrest]
    exact KeyedQueue.notMem_keys_pop (holdest.symm.trans hr)
  · intro p b
    rw [has_iff_of_requests h, hkeys]

/-- After any calls on a new queue its answers and contents are those of the keyed queue,
which lists a map of entries with their times of insertion, and the calls on it keep to
the order of the entries. -/
theorem performAll_first_in_first_out
    (ops : List (Operation (UInt32 × UInt32) RequestMetadata)) :
    (performAll ops).1 = (KeyedQueue.performAll RequestMetadata.block ops).1 ∧
      (performAll ops).2.requests = (KeyedQueue.performAll RequestMetadata.block ops).2.entries ∧
      (∃ held, Holdings.Runs RequestMetadata.block ops (performAll ops).1 held ∧
        held.Lists RequestMetadata.block ops.length (performAll ops).2.requests) ∧
      (performAll ops).2.FirstInFirstOut := by
  obtain ⟨hanswers, hrequests⟩ := performAll_eq ops
  refine ⟨hanswers, hrequests, ?_, firstInFirstOut_of_requests hrequests⟩
  rw [hanswers, hrequests]
  exact KeyedQueue.performAll_simulates ops

end RequestQueue
end TorrentClient
