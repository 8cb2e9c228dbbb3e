import Mathlib.Data.List.Basic

/-!
# Reading frames off a stream until one fails

`readAll` applies a frame reader again and again and stops at its first failure. If
every frame is read back from the front of the stream, the stream of a list of frames
is read back as that list; `readAll_returns_iff` makes the condition exact when the
frames that are not read back are read as something else or not at all.
-/
namespace FrameStreams

variable {α β δ : Type*}

/-- The items read, what was left of the stream when the reader stopped, and why it did. -/
structure Outcome (α β δ : Type*) where
  items : List α
  unread : List β
  stop : δ

/-- The loop; `atEnd` is the failure of the reader on an empty stream, and the bound on
the number of frames is given by the length of the stream. -/
def readFrames (frame : List β → Except δ (α × List β)) (atEnd : δ) :
    ℕ → List β → Outcome α β δ
  | 0, stream => ⟨[], stream, atEnd⟩
  | n + 1, stream => match frame stream with
    | .error e => ⟨[], stream, e⟩
    | .ok (a, rest) =>
      let next := readFrames frame atEnd n rest
      { next with items := a :: next.items }

def readAll (frame : List β → Except δ (α × List β)) (atEnd : δ) (stream : List β) :
    Outcome α β δ :=
  readFrames frame atEnd (stream.length + 1) stream

variable {frame : List β → Except δ (α × List β)} {atEnd : δ} {enc : α → List β}

theorem readFrames_succ_ok (atEnd : δ) (n : ℕ) {stream rest : List β} {a : α}
    (h : frame stream = .ok (a, rest)) :
    (readFrames frame atEnd (n + 1) stream).items =
      a :: (readFrames frame atEnd n rest).items ∧
    (readFrames frame atEnd (n + 1) stream).unread =
      (readFrames frame atEnd n rest).unread := by
  simp [readFrames, h]

theorem readFrames_succ_error {n : ℕ} {stream : List β} {e : δ} (h : frame stream = .error e) :
    readFrames frame atEnd (n + 1) stream = ⟨[], stream, e⟩ := by
  simp [readFrames, h]

/-- Reading the stream of a list returns the list and leaves nothing unread exactly
when every item of the list is `good`. `dom` bounds the items the reader is asked about. -/
theorem readFrames_returns_iff {dom good : α → Prop}
    (hgood : ∀ a, dom a → good a → ∀ rest, frame (enc a ++ rest) = .ok (a, rest))
    (hbad : ∀ a, dom a → ¬ good a →
      ∀ rest b rest', frame (enc a ++ rest) = .ok (b, rest') → b ≠ a)
    (hend : ∃ e, frame [] = .error e) {items : List α} (hdom : ∀ a ∈ items, dom a) {n : ℕ}
    (hn : items.length < n) :
    ((readFrames frame atEnd n (items.flatMap enc)).items = items ∧
      (readFrames frame atEnd n (items.flatMap enc)).unread = []) ↔ ∀ a ∈ items, good a := by
  induction items generalizing n with
  | nil =>
    obtain ⟨e, he⟩ := hend
    obtain ⟨n, rfl⟩ : ∃ k, n = k + 1 := ⟨n - 1, by omega⟩
    simp [readFrames_succ_error he]
  | cons a items ih =>
    obtain ⟨n, rfl⟩ : ∃ k, n = k + 1 := ⟨n - 1, by omega⟩
    simp only [List.flatMap_cons, List.forall_mem_cons] at hdom ⊢
    by_cases ha : good a
    · obtain ⟨hi, hu⟩ := readFrames_succ_ok atEnd n
        (hgood a hdom.1 ha (items.flatMap enc))
      rw [hi, hu, List.cons_inj_right, ih hdom.2 (Nat.lt_of_succ_lt_succ hn)]
      simp [ha]
    · simp only [ha, false_and, iff_false, not_and]
      intro hi
      cases hf : frame (enc a ++ items.flatMap enc) with
      | error e => simp [readFrames_succ_error hf] at hi
      | ok p =>
        obtain ⟨b, rest⟩ := p
        rw [(readFrames_succ_ok atEnd n hf).1] at hi
        exact absurd (List.cons.inj hi).1 (hbad a hdom.1 ha _ _ _ hf)

private theorem length_le_length_flatMap (hne : ∀ a, enc a ≠ []) (items : List α) :
    items.length ≤ (items.flatMap enc).length := by
  induction items with
  | nil => simp
  | cons a items ih =>
    have := List.length_pos_of_ne_nil (hne a)
    simp only [List.flatMap_cons, List.length_cons, List.length_append]
    omega

theorem readAll_returns_iff {dom good : α → Prop}
    (hgood : ∀ a, dom a → good a → ∀ rest, frame (enc a ++ rest) = .ok (a, rest))
    (hbad : ∀ a, dom a → ¬ good a →
      ∀ rest b rest', frame (enc a ++ rest) = .ok (b, rest') → b ≠ a)
    (hend : ∃ e, frame [] = .error e) (hne : ∀ a, enc a ≠ []) {items : List α}
    (hdom : ∀ a ∈ items, dom a) :
    ((readAll frame atEnd (items.flatMap enc)).items = items ∧
      (readAll frame atEnd (items.flatMap enc)).unread = []) ↔ ∀ a ∈ items, good a :=
  readFrames_returns_iff hgood hbad hend hdom
    (Nat.lt_succ_of_le (length_le_length_flatMap hne items))

end FrameStreams
