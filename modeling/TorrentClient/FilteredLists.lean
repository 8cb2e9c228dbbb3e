import Mathlib.Data.List.Basic

/-!
# Entries that are replaced in a filtered list

Replacing an entry of a list leaves what a filter keeps of it as it was, or takes one entry out
of that.
-/
namespace FilteredLists

variable {α β : Type*} {p : α → Bool} {xs : List α} {i : ℕ} {x y : α}

/-- The new entry is kept just as the old one was. -/
theorem map_filter_set {f : α → β} (hx : xs[i]? = some x) (hp : p y = p x) (hf : f y = f x) :
    ((xs.set i y).filter p).map f = (xs.filter p).map f := by
  induction xs generalizing i with
  | nil => simp
  | cons a xs ih =>
    cases i with
    | zero =>
      obtain rfl : a = x := by simpa using hx
      cases h : p a <;> simp [hp, h, hf]
    | succ i =>
      have hrest := ih (i := i) (by simpa using hx)
      cases h : p a <;> simp [h, hrest]

/-- The new entry is not kept, and the old one was. -/
theorem filter_set_of_drop (hx : xs[i]? = some x) (hp : p x = true) (hq : p y = false) :
    ∃ j : ℕ, (xs.filter p)[j]? = some x ∧ (xs.set i y).filter p = (xs.filter p).eraseIdx j := by
  induction xs generalizing i with
  | nil => simp at hx
  | cons a xs ih =>
    cases i with
    | zero =>
      obtain rfl : a = x := by simpa using hx
      exact ⟨0, by simp [hp], by simp [hp, hq]⟩
    | succ i =>
      obtain ⟨j, hj, herase⟩ := ih (i := i) (by simpa using hx)
      cases h : p a with
      | false => exact ⟨j, by simpa [h] using hj, by simp [h, herase]⟩
      | true =>
        exact ⟨j + 1, by simpa [h] using hj, by simp [h, herase]⟩

/-- One entry more is kept where it was kept before. -/
theorem getElem?_filter (hx : xs[i]? = some x) (hp : p x = true) :
    ∃ j : ℕ, (xs.filter p)[j]? = some x := by
  obtain ⟨j, hj⟩ := List.getElem?_of_mem (List.mem_filter.mpr ⟨List.mem_of_getElem? hx, hp⟩)
  exact ⟨j, hj⟩

end FilteredLists
