import TorrentClient.ListRanges

/-!
# The parts of a range over consecutive chunks

What `splitRange` returns, part by part: the parts follow each other without a gap, each
lies in the chunk at its place, and a chunk gets a part exactly when the range reaches it.
A range that is read part by part, some parts not to their end, is a concatenation again.
-/
namespace ListRanges

/-- The lengths of the parts. -/
def partLengths (parts : List (ℕ × ℕ × ℕ)) : List ℕ := parts.map (·.2.2)

theorem sum_partLengths {lens : List ℕ} {start len : ℕ} (pos : ℕ) (hne : lens ≠ [])
    (hstart : ∀ n ∈ lens.head?, start ≤ n) (hlen : start + len ≤ lens.sum) :
    (partLengths (splitRange lens start len pos)).sum = len := by
  induction lens generalizing start len pos with
  | nil => exact absurd rfl hne
  | cons n lens ih =>
    have hn : start ≤ n := hstart n rfl
    rw [List.sum_cons] at hlen
    rw [splitRange]
    split_ifs with h
    · have hlens : lens ≠ [] := by
        rintro rfl
        rw [List.sum_nil] at hlen
        omega
      have hrest :=
        ih (pos + (n - start)) hlens (by simp) (show 0 + (len - (n - start)) ≤ _ by omega)
      simp only [partLengths, List.map_cons, List.sum_cons] at hrest ⊢
      omega
    · simp [partLengths]

/-- Each part starts where the parts before it end, in the range and in the chunks, and ends
inside its chunk. -/
theorem getElem?_splitRange {lens : List ℕ} {start len pos a p s l : ℕ}
    (hstart : ∀ n ∈ lens.head?, start ≤ n)
    (h : (splitRange lens start len pos)[a]? = some (p, s, l)) :
    p = pos + ((partLengths (splitRange lens start len pos)).take a).sum ∧
      (lens.take a).sum + s + pos = start + p ∧ ∃ n, lens[a]? = some n ∧ s + l ≤ n := by
  induction lens generalizing start len pos a with
  | nil => simp [splitRange] at h
  | cons n lens ih =>
    have hn : start ≤ n := hstart n rfl
    rw [splitRange] at h ⊢
    split_ifs at h ⊢ with hcross
    · cases a with
      | zero =>
        cases h
        exact ⟨by simp, by simp, n, rfl, by omega⟩
      | succ a =>
        obtain ⟨hp, hplace, m, hm, hfit⟩ := ih (by simp) h
        simp only [partLengths, List.map_cons, List.take_succ_cons, List.sum_cons] at hp ⊢
        exact ⟨by omega, by omega, m, hm, hfit⟩
    · cases a with
      | zero =>
        cases h
        exact ⟨by simp, by simp, n, rfl, by omega⟩
      | succ a => cases h

/-- A chunk behind the first one gets a part exactly when it starts before the range ends. -/
theorem lt_length_splitRange_iff {lens : List ℕ} {start len pos a : ℕ}
    (hstart : ∀ n ∈ lens.head?, start ≤ n) :
    a < (splitRange lens start len pos).length ↔
      a < lens.length ∧ (0 < a → (lens.take a).sum < start + len) := by
  induction lens generalizing start len pos a with
  | nil => simp [splitRange]
  | cons n lens ih =>
    have hn : start ≤ n := hstart n rfl
    rw [splitRange]
    split_ifs with hcross
    · cases a with
      | zero => simp
      | succ a =>
        have hrest : a < (splitRange lens 0 (len - (n - start)) (pos + (n - start))).length ↔
            a < lens.length ∧ (0 < a → (lens.take a).sum < 0 + (len - (n - start))) :=
          ih (by simp)
        simp only [List.length_cons, Nat.add_lt_add_iff_right, hrest, List.take_succ_cons,
          List.sum_cons]
        refine and_congr_right fun _ => ⟨fun h _ => ?_, fun h ha => ?_⟩
        · rcases Nat.eq_zero_or_pos a with rfl | ha
          · simpa using hcross
          · have := h ha
            omega
        · have := h (Nat.succ_pos a)
          omega
    · cases a with
      | zero => simp
      | succ a =>
        have hle : n ≤ ((n :: lens).take (a + 1)).sum := by simp
        constructor
        · intro h
          simp at h
        · intro h
          have := h.2 (Nat.succ_pos a)
          omega

/-- A list that does not decrease is the list of the borders of some chunks. -/
theorem exists_borders {base : ℕ} {xs : List ℕ} (hsorted : (base :: xs).Pairwise (· ≤ ·)) :
    ∃ lens, base :: xs = borders base lens := by
  induction xs generalizing base with
  | nil => exact ⟨[], rfl⟩
  | cons x xs ih =>
    obtain ⟨hbase, hrest⟩ := List.pairwise_cons.mp hsorted
    obtain ⟨lens, hlens⟩ := ih hrest
    refine ⟨(x - base) :: lens, ?_⟩
    rw [borders, Nat.add_sub_cancel' (hbase x List.mem_cons_self), hlens]

end ListRanges
