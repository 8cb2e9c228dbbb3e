import TorrentClient.ManagerEvents

/-!
# Queues of block requests

A queue holds the requests of one side of a connection in the order they were added. A
block is found by its piece and its index in the piece.
-/
namespace TorrentClient

/-- `matches` -/
def RequestMetadata.matchesBlock (r : RequestMetadata) (pieceIndex blockIndex : UInt32) : Bool :=
  r.pieceIndex == pieceIndex && r.blockIndex == blockIndex

theorem RequestMetadata.matchesBlock_iff {r : RequestMetadata} {p b : UInt32} :
    r.matchesBlock p b = true ↔ r.pieceIndex = p ∧ r.blockIndex = b := by
  simp [matchesBlock]

structure RequestQueue where
  requests : List RequestMetadata
  deriving DecidableEq, Repr

namespace RequestQueue

def new : RequestQueue := ⟨[]⟩

def position (q : RequestQueue) (pieceIndex blockIndex : UInt32) : Option ℕ :=
  q.requests.findIdx? fun r => r.matchesBlock pieceIndex blockIndex

def has (q : RequestQueue) (pieceIndex blockIndex : UInt32) : Bool :=
  (q.position pieceIndex blockIndex).isSome

def add (q : RequestQueue) (pieceIndex blockIndex offset blockLength : UInt32) :
    Bool × RequestQueue :=
  if !q.has pieceIndex blockIndex then
    (true, ⟨q.requests ++ [⟨pieceIndex, blockIndex, offset, blockLength⟩]⟩)
  else (false, q)

def pop (q : RequestQueue) : Option RequestMetadata × RequestQueue :=
  match q.requests with
  | [] => (none, q)
  | r :: requests => (some r, ⟨requests⟩)

def remove (q : RequestQueue) (pieceIndex blockIndex : UInt32) :
    Option RequestMetadata × RequestQueue :=
  match q.position pieceIndex blockIndex with
  | some i => (q.requests[i]?, ⟨q.requests.eraseIdx i⟩)
  | none => (none, q)

def len (q : RequestQueue) : ℕ := q.requests.length

variable {q : RequestQueue} {p b p' b' offset blockLength : UInt32}

theorem has_iff : q.has p b = true ↔ ∃ r ∈ q.requests, r.matchesBlock p b = true := by
  rw [has, position, List.findIdx?_isSome, List.any_eq_true]

theorem add_of_has (h : q.has p b = true) : q.add p b offset blockLength = (false, q) := by
  simp [add, h]

theorem add_of_not_has (h : q.has p b = false) : q.add p b offset blockLength =
    (true, ⟨q.requests ++ [⟨p, b, offset, blockLength⟩]⟩) := by
  simp [add, h]

theorem has_add (q : RequestQueue) (p b offset blockLength p' b' : UInt32) :
    (q.add p b offset blockLength).2.has p' b' =
      (q.has p' b' || (p == p' && b == b')) := by
  cases h : q.has p b with
  | true =>
    rw [add_of_has h]
    by_cases heq : p = p' ∧ b = b'
    · obtain ⟨rfl, rfl⟩ := heq
      simp [h]
    · have : (p == p' && b == b') = false := by simpa using heq
      simp [this]
  | false =>
    rw [add_of_not_has h, Bool.eq_iff_iff, has_iff, Bool.or_eq_true, has_iff]
    simp [RequestMetadata.matchesBlock, or_and_right, exists_or]

theorem len_add_le (q : RequestQueue) (p b offset blockLength : UInt32) :
    (q.add p b offset blockLength).2.len ≤ q.len + 1 := by
  cases h : q.has p b with
  | true => simp [add_of_has h]
  | false => simp [add_of_not_has h, len]

theorem remove_of_not_has (h : q.has p b = false) : q.remove p b = (none, q) := by
  have : q.position p b = none := by simpa [has] using h
  simp [remove, this]

/-- Where a block is in the queue, its first request is taken out. -/
theorem remove_of_has (h : q.has p b = true) :
    ∃ before r after, q.requests = before ++ r :: after ∧ r.matchesBlock p b = true ∧
      q.remove p b = (some r, ⟨before ++ after⟩) := by
  obtain ⟨i, hi⟩ := Option.isSome_iff_exists.mp h
  obtain ⟨hlt, hmatch, -⟩ := List.findIdx?_eq_some_iff_getElem.mp hi
  refine ⟨q.requests.take i, q.requests[i], q.requests.drop (i + 1), ?_, hmatch, ?_⟩
  · rw [List.cons_getElem_drop_succ, List.take_append_drop]
  · rw [remove, hi]
    simp [List.eraseIdx_eq_take_drop_succ, List.getElem?_eq_getElem hlt]

theorem len_remove_of_has (h : q.has p b = true) : (q.remove p b).2.len + 1 = q.len := by
  obtain ⟨before, r, after, hq, -, hremove⟩ := remove_of_has h
  rw [hremove, len, len, hq]
  simp only [List.length_append, List.length_cons]
  omega

theorem len_remove_le (q : RequestQueue) (p b : UInt32) : (q.remove p b).2.len ≤ q.len := by
  cases h : q.has p b with
  | true =>
    have := len_remove_of_has h
    omega
  | false => simp [remove_of_not_has h]

theorem remove_requests_of_nil (h : q.requests = []) : (q.remove p b).2.requests = [] := by
  have hlen := len_remove_le q p b
  rw [len, len, h] at hlen
  exact List.eq_nil_of_length_eq_zero (Nat.le_zero.mp hlen)

/-- Other blocks stay in the queue. -/
theorem has_remove_of_ne (hne : ¬ (p' = p ∧ b' = b)) :
    (q.remove p b).2.has p' b' = q.has p' b' := by
  cases h : q.has p b with
  | false => rw [remove_of_not_has h]
  | true =>
    obtain ⟨before, r, after, hq, hmatch, hremove⟩ := remove_of_has h
    have hother : r.matchesBlock p' b' = false := by
      obtain ⟨rfl, rfl⟩ := RequestMetadata.matchesBlock_iff.mp hmatch
      rw [Bool.eq_false_iff, ne_eq, RequestMetadata.matchesBlock_iff]
      rintro ⟨hp, hb⟩
      exact hne ⟨hp.symm, hb.symm⟩
    rw [hremove, Bool.eq_iff_iff, has_iff, has_iff, hq]
    simp [hother, or_and_right, exists_or]

end RequestQueue
end TorrentClient
