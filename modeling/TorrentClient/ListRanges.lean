import Mathlib.Data.List.Basic
import Mathlib.Algebra.BigOperators.Group.List.Basic
import Mathlib.Algebra.GroupWithZero.Nat

/-!
# Ranges of a list, and a list stored as consecutive parts

`slice` reads a range of a list and `overwrite` replaces one. A list that is kept as
several consecutive chunks is read and written through `splitRange`, which cuts a
range at the chunk borders. `flatten_writeParts` and `readParts_splitRange` state that
the cut is invisible on the concatenation of the chunks.
-/
namespace ListRanges

variable {α : Type*}

def slice (xs : List α) (start len : ℕ) : List α := (xs.drop start).take len

def overwrite (xs : List α) (start : ℕ) (ys : List α) : List α :=
  xs.take start ++ (ys ++ xs.drop (start + ys.length))

theorem getElem?_slice (xs : List α) (start len k : ℕ) :
    (slice xs start len)[k]? = if k < len then xs[start + k]? else none := by
  simp [slice, List.getElem?_take, List.getElem?_drop]

theorem length_slice {xs : List α} {start len : ℕ} (h : start + len ≤ xs.length) :
    (slice xs start len).length = len := by
  simp only [slice, List.length_take, List.length_drop]
  omega

@[simp] theorem slice_zero (xs : List α) (start : ℕ) : slice xs start 0 = [] := by simp [slice]

theorem slice_full (xs : List α) : slice xs 0 xs.length = xs := by simp [slice]

theorem slice_append_left {xs zs : List α} {start len : ℕ} (h : start + len ≤ xs.length) :
    slice (xs ++ zs) start len = slice xs start len := by
  have hs : start ≤ xs.length := by omega
  rw [slice, List.drop_append_of_le_length hs, List.take_append_of_le_length]
  · rfl
  · simp only [List.length_drop]
    omega

theorem slice_append_right (xs zs : List α) (start len : ℕ) :
    slice (xs ++ zs) (xs.length + start) len = slice zs start len := by
  rw [slice, ← List.drop_drop, List.drop_left, slice]

/-- A range that starts in the first of two lists and runs over its end. -/
theorem slice_append_across {xs : List α} (zs : List α) {start : ℕ} (rest : ℕ)
    (h : start ≤ xs.length) :
    slice (xs ++ zs) start (xs.length - start + rest) =
      slice xs start (xs.length - start) ++ slice zs 0 rest := by
  simp [slice, List.drop_append_of_le_length h, List.take_append]

theorem slice_add (xs : List α) (start a b : ℕ) :
    slice xs start (a + b) = slice xs start a ++ slice xs (start + a) b := by
  simp [slice, List.take_add, List.drop_drop]

theorem length_overwrite (xs ys : List α) (start : ℕ) (h : start + ys.length ≤ xs.length) :
    (overwrite xs start ys).length = xs.length := by
  simp only [overwrite, List.length_append, List.length_take, List.length_drop]
  omega

theorem getElem?_overwrite_outside {xs ys : List α} {start k : ℕ}
    (h : start + ys.length ≤ xs.length) (hk : k < start ∨ start + ys.length ≤ k) :
    (overwrite xs start ys)[k]? = xs[k]? := by
  have hl : (xs.take start).length = start := by simp; omega
  rcases hk with hk | hk
  · rw [overwrite, List.getElem?_append_left (by omega), List.getElem?_take_of_lt hk]
  · rw [overwrite, List.getElem?_append_right (by omega), List.getElem?_append_right (by omega),
      List.getElem?_drop]
    congr 1
    omega

theorem getElem?_overwrite_inside {xs ys : List α} {start k : ℕ}
    (h : start + ys.length ≤ xs.length) (hk : start ≤ k) (hk' : k < start + ys.length) :
    (overwrite xs start ys)[k]? = ys[k - start]? := by
  have hl : (xs.take start).length = start := by simp; omega
  rw [overwrite, List.getElem?_append_right (by omega), List.getElem?_append_left (by omega), hl]

theorem slice_overwrite_self {xs ys : List α} {start : ℕ} (h : start + ys.length ≤ xs.length) :
    slice (overwrite xs start ys) start ys.length = ys := by
  have hl : (xs.take start).length = start := by simp; omega
  rw [slice, overwrite, List.drop_append_of_le_length (by omega), List.drop_of_length_le (by omega)]
  simp

theorem slice_overwrite_disjoint {xs ys : List α} {start a len : ℕ}
    (h : start + ys.length ≤ xs.length) (hd : a + len ≤ start ∨ start + ys.length ≤ a) :
    slice (overwrite xs start ys) a len = slice xs a len := by
  apply List.ext_getElem?
  intro k
  simp only [getElem?_slice]
  split_ifs with hk
  · exact getElem?_overwrite_outside h (by omega)
  · rfl

/-- What a list holds after one of its entries was changed in place. -/
theorem getElem?_modify_eq_some {xs : List α} {p i : ℕ} {f : α → α} {y : α}
    (h : (xs.modify p f)[i]? = some y) :
    (p = i ∧ ∃ x, xs[i]? = some x ∧ f x = y) ∨ (p ≠ i ∧ xs[i]? = some y) := by
  by_cases hi : p = i
  · subst hi
    rw [List.getElem?_modify_eq] at h
    exact Or.inl ⟨rfl, Option.map_eq_some_iff.mp h⟩
  · rw [List.getElem?_modify_ne _ _ hi] at h
    exact Or.inr ⟨hi, h⟩

/-- Two lists agree outside a range. -/
def EqualOutside (xs ys : List α) (start len : ℕ) : Prop :=
  ∀ k, k < start ∨ start + len ≤ k → ys[k]? = xs[k]?

theorem EqualOutside.refl (xs : List α) (start len : ℕ) : EqualOutside xs xs start len :=
  fun _ _ => rfl

theorem EqualOutside.slice_eq {xs ys : List α} {start len a n : ℕ}
    (h : EqualOutside xs ys start len) (hd : a + n ≤ start ∨ start + len ≤ a) :
    slice ys a n = slice xs a n := by
  apply List.ext_getElem?
  intro k
  simp only [getElem?_slice]
  split_ifs with hk
  · apply h
    omega
  · rfl

/-- Overwriting stays inside a range that starts at the same place exactly when the data
that reaches over its end is there already. -/
theorem equalOutside_overwrite_iff {xs ys : List α} {start : ℕ} (len : ℕ)
    (h : start + ys.length ≤ xs.length) :
    EqualOutside xs (overwrite xs start ys) start len ↔
      slice xs (start + len) (ys.length - len) = ys.drop len := by
  constructor
  · intro heq
    apply List.ext_getElem?
    intro k
    rw [getElem?_slice, List.getElem?_drop]
    split_ifs with hk
    · rw [← heq _ (Or.inr (Nat.le_add_right _ _)), getElem?_overwrite_inside h (by omega) (by omega)]
      congr 1
      omega
    · rw [List.getElem?_eq_none (by omega)]
  · intro hdrop k hk
    by_cases hout : k < start ∨ start + ys.length ≤ k
    · exact getElem?_overwrite_outside h hout
    · have hget := congrArg (·[k - (start + len)]?) hdrop
      simp only [getElem?_slice, List.getElem?_drop] at hget
      rw [if_pos (by omega), Nat.add_sub_cancel' (by omega)] at hget
      rw [getElem?_overwrite_inside h (by omega) (by omega), hget]
      congr 1
      omega

theorem overwrite_full {xs ys : List α} (h : ys.length = xs.length) : overwrite xs 0 ys = ys := by
  simp [overwrite, h]

theorem overwrite_append_left {xs ys : List α} (zs : List α) {start : ℕ}
    (h : start + ys.length ≤ xs.length) :
    overwrite (xs ++ zs) start ys = overwrite xs start ys ++ zs := by
  simp only [overwrite, List.append_assoc]
  rw [List.take_append_of_le_length (by omega), List.drop_append_of_le_length h]

theorem overwrite_append_right (xs zs ys : List α) (start : ℕ) :
    overwrite (xs ++ zs) (xs.length + start) ys = xs ++ overwrite zs start ys := by
  simp [overwrite, List.take_append, List.drop_append, Nat.add_assoc, List.take_of_length_le,
    List.drop_of_length_le]

/-- Writing over the border of two lists writes the first part up to the border. -/
theorem overwrite_append_across {xs ys : List α} (zs ws : List α) {start : ℕ}
    (h : start + ys.length = xs.length) :
    overwrite (xs ++ zs) start (ys ++ ws) = overwrite xs start ys ++ overwrite zs 0 ws := by
  have ht : start ≤ xs.length := by omega
  simp only [overwrite, List.append_assoc, List.length_append]
  rw [List.take_append_of_le_length ht, ← Nat.add_assoc, h]
  simp [List.drop_append]

/-- Two consecutive writes are one write of both parts. -/
theorem overwrite_overwrite_next (xs ys ws : List α) (start : ℕ)
    (h : start + ys.length + ws.length ≤ xs.length) :
    overwrite (overwrite xs start ys) (start + ys.length) ws = overwrite xs start (ys ++ ws) := by
  have hl := length_overwrite xs ys start (by omega)
  apply List.ext_getElem?
  intro k
  by_cases hin : start ≤ k ∧ k < start + (ys ++ ws).length
  · simp only [List.length_append] at hin
    have hw : start + (ys ++ ws).length ≤ xs.length := by simp; omega
    rw [getElem?_overwrite_inside hw hin.1 (by simp; omega)]
    by_cases hk : k < start + ys.length
    · rw [getElem?_overwrite_outside (by omega) (Or.inl hk),
        getElem?_overwrite_inside (by omega) hin.1 hk, List.getElem?_append_left (by omega)]
    · rw [getElem?_overwrite_inside (by omega) (by omega) (by omega),
        List.getElem?_append_right (by omega)]
      congr 1
      omega
  · simp only [List.length_append] at hin
    rw [getElem?_overwrite_outside (by omega) (by omega),
      getElem?_overwrite_outside (by omega) (by omega),
      getElem?_overwrite_outside (by simp; omega) (by simp; omega)]

/-- The borders of consecutive chunks with the given lengths, the first one at `base`. -/
def borders (base : ℕ) : List ℕ → List ℕ
  | [] => [base]
  | n :: lens => base :: borders (base + n) lens

@[simp] theorem length_borders (base : ℕ) (lens : List ℕ) :
    (borders base lens).length = lens.length + 1 := by
  induction lens generalizing base with
  | nil => rfl
  | cons n lens ih => simp [borders, ih]

@[simp] theorem head?_borders (base : ℕ) (lens : List ℕ) :
    (borders base lens).head? = some base := by
  cases lens <;> rfl

theorem drop_borders (base : ℕ) (lens : List ℕ) {i : ℕ} (h : i ≤ lens.length) :
    (borders base lens).drop i = borders (base + (lens.take i).sum) (lens.drop i) := by
  induction lens generalizing base i with
  | nil =>
    obtain rfl : i = 0 := by simpa using h
    simp [borders]
  | cons n lens ih =>
    cases i with
    | zero => simp [borders]
    | succ i => simp [borders, ih (base + n) (Nat.le_of_succ_le_succ h), Nat.add_assoc]

theorem getElem?_borders (base : ℕ) (lens : List ℕ) {i : ℕ} (h : i ≤ lens.length) :
    (borders base lens)[i]? = some (base + (lens.take i).sum) := by
  rw [← List.head?_drop, drop_borders base lens h, head?_borders]

/-- The parts of the range of length `len` that starts `start` elements into the first
chunk: the position in the range, the position in the chunk and the length of each. -/
def splitRange : List ℕ → ℕ → ℕ → ℕ → List (ℕ × ℕ × ℕ)
  | [], _, _, _ => []
  | n :: lens, start, len, pos =>
    if n < start + len then
      (pos, start, n - start) :: splitRange lens 0 (len - (n - start)) (pos + (n - start))
    else [(pos, start, len)]

theorem length_splitRange_le (lens : List ℕ) (start len pos : ℕ) :
    (splitRange lens start len pos).length ≤ lens.length := by
  induction lens generalizing start len pos with
  | nil => simp [splitRange]
  | cons n lens ih =>
    simp only [splitRange]
    split_ifs
    · simpa using ih _ _ _
    · simp

theorem splitRange_ne_nil {lens : List ℕ} (h : lens ≠ []) (start len pos : ℕ) :
    splitRange lens start len pos ≠ [] := by
  cases lens with
  | nil => exact absurd rfl h
  | cons n lens =>
    simp only [splitRange]
    split_ifs <;> simp

/-- The chunks after each part has been written into its chunk. -/
def writeParts : List (List α) → List (ℕ × ℕ × ℕ) → List α → List (List α)
  | x :: xs, (pos, start, len) :: parts, data =>
    overwrite x start (slice data pos len) :: writeParts xs parts data
  | xs, _, _ => xs

/-- The buffer after each part has been filled from its chunk. -/
def readParts : List (List α) → List (ℕ × ℕ × ℕ) → List α → List α
  | x :: xs, (pos, start, len) :: parts, buffer =>
    readParts xs parts (overwrite buffer pos (slice x start len))
  | _, _, buffer => buffer

/-- Each part lies inside its chunk and inside a range of length `total`. -/
def PartsFit (total : ℕ) : List ℕ → List (ℕ × ℕ × ℕ) → Prop
  | n :: lens, (pos, start, len) :: parts =>
    start + len ≤ n ∧ pos + len ≤ total ∧ PartsFit total lens parts
  | _, [] => True
  | [], _ :: _ => False

theorem splitRange_fit {lens : List ℕ} {start len : ℕ} (pos total : ℕ)
    (hstart : ∀ n ∈ lens.head?, start ≤ n) (hlen : start + len ≤ lens.sum)
    (htotal : pos + len ≤ total) : PartsFit total lens (splitRange lens start len pos) := by
  induction lens generalizing start len pos with
  | nil => simp [splitRange, PartsFit]
  | cons n lens ih =>
    have hn : start ≤ n := hstart n rfl
    rw [List.sum_cons] at hlen
    rw [splitRange]
    split_ifs with h
    · exact ⟨by omega, by omega, ih _ (by simp) (by omega) (by omega)⟩
    · refine ⟨by omega, htotal, ?_⟩
      cases lens <;> trivial

theorem map_length_writeParts {xs : List (List α)} {parts : List (ℕ × ℕ × ℕ)} {data : List α}
    (h : PartsFit data.length (xs.map List.length) parts) :
    (writeParts xs parts data).map List.length = xs.map List.length := by
  induction xs generalizing parts with
  | nil => cases parts <;> rfl
  | cons x xs ih =>
    match parts, h with
    | [], _ => rfl
    | (pos, start, len) :: parts, ⟨hin, hdata, hrest⟩ =>
      simp only [writeParts, List.map_cons, ih hrest]
      rw [length_overwrite]
      rw [length_slice hdata]
      exact hin

theorem flatten_writeParts (xs : List (List α)) (data : List α) {start len pos : ℕ}
    (hstart : ∀ x ∈ xs.head?, start ≤ x.length) (hlen : start + len ≤ xs.flatten.length)
    (hdata : pos + len ≤ data.length) :
    (writeParts xs (splitRange (xs.map List.length) start len pos) data).flatten =
      overwrite xs.flatten start (slice data pos len) := by
  induction xs generalizing start len pos with
  | nil =>
    obtain ⟨rfl, rfl⟩ : start = 0 ∧ len = 0 := by simpa using hlen
    simp [writeParts, overwrite]
  | cons x xs ih =>
    have hx : start ≤ x.length := hstart x rfl
    simp only [List.flatten_cons, List.length_append] at hlen
    simp only [List.map_cons, splitRange]
    split_ifs with h
    · have hl : len = x.length - start + (len - (x.length - start)) := by omega
      have hp : (slice data pos (x.length - start)).length = x.length - start :=
        length_slice (by omega)
      simp only [writeParts, List.flatten_cons]
      rw [ih (by simp) (by omega) (by omega), hl, slice_add,
        overwrite_append_across _ _ (by omega)]
      congr 3
      omega
    · have hp : (slice data pos len).length = len := length_slice hdata
      cases xs with
      | nil => simp [writeParts]
      | cons y ys =>
        simp only [writeParts, List.flatten_cons]
        rw [overwrite_append_left _ (by omega)]

theorem readParts_splitRange (xs : List (List α)) (buffer : List α) {start len pos : ℕ}
    (hstart : ∀ x ∈ xs.head?, start ≤ x.length) (hlen : start + len ≤ xs.flatten.length)
    (hbuf : pos + len ≤ buffer.length) :
    readParts xs (splitRange (xs.map List.length) start len pos) buffer =
      overwrite buffer pos (slice xs.flatten start len) := by
  induction xs generalizing start len pos buffer with
  | nil =>
    obtain ⟨rfl, rfl⟩ : start = 0 ∧ len = 0 := by simpa using hlen
    simp [readParts, overwrite]
  | cons x xs ih =>
    have hx : start ≤ x.length := hstart x rfl
    simp only [List.flatten_cons, List.length_append] at hlen
    simp only [List.map_cons, splitRange]
    split_ifs with h
    · have hl : len = x.length - start + (len - (x.length - start)) := by omega
      have hp : (slice x start (x.length - start)).length = x.length - start :=
        length_slice (by omega)
      have hr : (slice xs.flatten 0 (len - (x.length - start))).length =
          len - (x.length - start) := length_slice (by omega)
      have hb := length_overwrite buffer (slice x start (x.length - start)) pos (by omega)
      have hnext := overwrite_overwrite_next buffer (slice x start (x.length - start))
        (slice xs.flatten 0 (len - (x.length - start))) pos (by omega)
      simp only [readParts, List.flatten_cons]
      rw [ih _ (by simp) (by omega) (by omega)]
      rw [hp] at hnext
      rw [hnext, ← slice_append_across _ _ hx, ← hl]
    · rw [List.flatten_cons, slice_append_left (by omega)]
      cases xs <;> rfl

/-- Consecutive parts of `n` elements; the last one may be shorter. -/
def chunks (n : ℕ) (xs : List α) : List (List α) :=
  if _h : 0 < n ∧ 0 < xs.length then xs.take n :: chunks n (xs.drop n) else []
termination_by xs.length
decreasing_by
  simp only [List.length_drop]
  omega

theorem chunks_append {n : ℕ} {xs : List α} (hn : 0 < n) (hxs : xs.length = n) (ys : List α) :
    chunks n (xs ++ ys) = xs :: chunks n ys := by
  rw [chunks, dif_pos ⟨hn, by rw [List.length_append]; omega⟩]
  rw [List.take_left' hxs, List.drop_left' hxs]

theorem chunks_flatMap {β : Type*} {n : ℕ} {f : β → List α} (hn : 0 < n)
    (hf : ∀ b, (f b).length = n) (bs : List β) : chunks n (bs.flatMap f) = bs.map f := by
  induction bs with
  | nil => rw [List.flatMap_nil, chunks, dif_neg (by simp), List.map_nil]
  | cons b bs ih => rw [List.flatMap_cons, chunks_append hn (hf b), ih, List.map_cons]

end ListRanges
