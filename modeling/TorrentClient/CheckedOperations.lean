import TorrentClient.ListRanges

/-!
# Operations that can fail

A `Fault` is how a call stops early: with an error value that `?` propagates, or with
a panic (an index out of range, an arithmetic overflow of a checked build, a failed
assertion or `unwrap`). `usize` and `u64` values are natural numbers here, so every
operation on them that can leave the 64-bit range is one of the checked ones below.
-/
namespace TorrentClient

abbrev Bytes := List UInt8

inductive Fault (ε : Type) where
  | err (e : ε)
  | panic
  deriving DecidableEq, Repr

/-- The result of a function of the `base` and `peer` modules, whose errors are texts. -/
abbrev Outcome := Except (Fault String)

variable {ε α : Type}

/-- The error of a call that cannot panic. -/
def liftError (x : Except ε α) : Except (Fault ε) α := x.mapError .err

/-- `xs[i]` -/
def index (xs : List α) (i : ℕ) : Except (Fault ε) α :=
  match xs[i]? with
  | some x => .ok x
  | none => .error .panic

/-- `&xs[start..stop]` -/
def subslice (xs : List α) (start stop : ℕ) : Except (Fault ε) (List α) :=
  if start ≤ stop ∧ stop ≤ xs.length then .ok (ListRanges.slice xs start (stop - start))
  else .error .panic

/-- `a + b` on `u64` or `usize` -/
def checkedAdd (a b : ℕ) : Except (Fault ε) ℕ :=
  if a + b < 2 ^ 64 then .ok (a + b) else .error .panic

/-- `a - b` on an unsigned type -/
def checkedSub (a b : ℕ) : Except (Fault ε) ℕ :=
  if b ≤ a then .ok (a - b) else .error .panic

/-- `a * b` on `u64` or `usize` -/
def checkedMul (a b : ℕ) : Except (Fault ε) ℕ :=
  if a * b < 2 ^ 64 then .ok (a * b) else .error .panic

/-- `a * b` on `u32` -/
def checkedMul32 (a b : ℕ) : Except (Fault ε) ℕ :=
  if a * b < 2 ^ 32 then .ok (a * b) else .error .panic

/-- `a / b` on an unsigned type -/
def checkedDiv (a b : ℕ) : Except (Fault ε) ℕ :=
  if b = 0 then .error .panic else .ok (a / b)

/-- `assert!(c)` -/
def assert (c : Prop) [Decidable c] : Except (Fault ε) Unit :=
  if c then .ok () else .error .panic

theorem index_eq_ok {xs : List α} {i : ℕ} {x : α} :
    (index xs i : Except (Fault ε) α) = .ok x ↔ xs[i]? = some x := by
  unfold index
  cases xs[i]? <;> simp

theorem index_of_getElem? {xs : List α} {i : ℕ} {x : α} (h : xs[i]? = some x) :
    (index xs i : Except (Fault ε) α) = .ok x := index_eq_ok.mpr h

theorem index_of_le {xs : List α} {i : ℕ} (h : xs.length ≤ i) :
    (index xs i : Except (Fault ε) α) = .error .panic := by
  simp [index, List.getElem?_eq_none h]

theorem subslice_of_le {xs : List α} {start len : ℕ} (h : start + len ≤ xs.length) :
    (subslice xs start (start + len) : Except (Fault ε) (List α)) =
      .ok (ListRanges.slice xs start len) := by
  rw [subslice, if_pos ⟨Nat.le_add_right _ _, h⟩, Nat.add_sub_cancel_left]

theorem checkedAdd_of_lt {a b : ℕ} (h : a + b < 2 ^ 64) :
    (checkedAdd a b : Except (Fault ε) ℕ) = .ok (a + b) := if_pos h

theorem checkedAdd_eq_ok {a b c : ℕ} :
    (checkedAdd a b : Except (Fault ε) ℕ) = .ok c ↔ a + b < 2 ^ 64 ∧ a + b = c := by
  unfold checkedAdd
  split_ifs with h
  · simp only [Except.ok.injEq, h, true_and]
  · simp only [h, false_and]

theorem checkedSub_of_le {a b : ℕ} (h : b ≤ a) :
    (checkedSub a b : Except (Fault ε) ℕ) = .ok (a - b) := if_pos h

theorem checkedMul_eq_ok {a b c : ℕ} :
    (checkedMul a b : Except (Fault ε) ℕ) = .ok c ↔ a * b < 2 ^ 64 ∧ a * b = c := by
  unfold checkedMul
  split_ifs with h
  · simp only [Except.ok.injEq, h, true_and]
  · simp only [h, false_and]

theorem checkedMul32_of_lt {a b : ℕ} (h : a * b < 2 ^ 32) :
    (checkedMul32 a b : Except (Fault ε) ℕ) = .ok (a * b) := if_pos h

theorem checkedDiv_of_ne {a b : ℕ} (h : b ≠ 0) :
    (checkedDiv a b : Except (Fault ε) ℕ) = .ok (a / b) := if_neg h

theorem assert_eq_ok {c : Prop} [Decidable c] :
    (assert c : Except (Fault ε) Unit) = .ok () ↔ c := by
  unfold assert
  split_ifs with h <;> simp [h]

@[simp] theorem ok_bind {β δ : Type} (a : α) (f : α → Except δ β) :
    ((.ok a : Except δ α) >>= f) = f a := rfl

@[simp] theorem error_bind {β δ : Type} (e : δ) (f : α → Except δ β) :
    ((.error e : Except δ α) >>= f) = .error e := rfl

theorem bind_eq_ok {β δ : Type} {x : Except δ α} {f : α → Except δ β} {b : β} :
    (x >>= f) = .ok b ↔ ∃ a, x = .ok a ∧ f a = .ok b := by
  cases x <;> simp

theorem mapM_of_forall_ok {β δ : Type} {f : α → Except δ β} {g : α → β} {xs : List α}
    (h : ∀ x ∈ xs, f x = .ok (g x)) : xs.mapM f = .ok (xs.map g) := by
  induction xs with
  | nil => rfl
  | cons x xs ih =>
    rw [List.forall_mem_cons] at h
    rw [List.mapM_cons, h.1, ok_bind, ih h.2]
    rfl

theorem mapM_ok_of_forall {β δ : Type} {f : α → Except δ β} {xs : List α}
    (h : ∀ x ∈ xs, ∃ y, f x = .ok y) : ∃ ys, xs.mapM f = .ok ys := by
  induction xs with
  | nil => exact ⟨[], rfl⟩
  | cons x xs ih =>
    rw [List.forall_mem_cons] at h
    obtain ⟨y, hy⟩ := h.1
    obtain ⟨ys, hys⟩ := ih h.2
    rw [List.mapM_cons, hy, ok_bind, hys]
    exact ⟨y :: ys, rfl⟩

/-- A successful `mapM` succeeded at every position. -/
theorem mapM_eq_ok {β δ : Type} {f : α → Except δ β} {xs : List α} {ys : List β}
    (h : xs.mapM f = .ok ys) :
    ys.length = xs.length ∧ ∀ (i : ℕ) x, xs[i]? = some x → ∃ y, ys[i]? = some y ∧ f x = .ok y := by
  induction xs generalizing ys with
  | nil =>
    cases h
    simp
  | cons x xs ih =>
    rw [List.mapM_cons, bind_eq_ok] at h
    obtain ⟨y, hy, h⟩ := h
    obtain ⟨ys', hys, h⟩ := bind_eq_ok.mp h
    cases h
    obtain ⟨hlen, hget⟩ := ih hys
    refine ⟨by simp [hlen], ?_⟩
    intro i x' hx'
    cases i with
    | zero =>
      obtain rfl : x = x' := by simpa using hx'
      exact ⟨y, rfl, hy⟩
    | succ i => exact hget i x' (by simpa using hx')

/-- A computation on a state of `σ`, which keeps the state it reached also when it fails. -/
abbrev Stateful (ε σ : Type) := EStateM (Fault ε) σ

variable {σ β : Type}

/-- A pure part of a stateful function. -/
def pureStep (x : Except (Fault ε) α) : Stateful ε σ α := fun s =>
  match x with
  | .ok a => .ok a s
  | .error e => .error e s

/-- `if c { x }` -/
def runIf (c : Bool) (x : Stateful ε σ Unit) : Stateful ε σ Unit := if c then x else pure ()

@[simp] theorem runIf_true (x : Stateful ε σ Unit) (s : σ) : runIf true x s = x s := rfl

@[simp] theorem runIf_false (x : Stateful ε σ Unit) (s : σ) : runIf false x s = .ok () s := rfl

@[simp] theorem pureStep_ok (a : α) (s : σ) :
    (pureStep (.ok a : Except (Fault ε) α) : Stateful ε σ α) s = .ok a s := rfl

@[simp] theorem pureStep_error (e : Fault ε) (s : σ) :
    (pureStep (.error e : Except (Fault ε) α) : Stateful ε σ α) s = .error e s := rfl

theorem get_ok (s : σ) : (MonadState.get : Stateful ε σ σ) s = .ok s s := rfl

theorem bind_of_ok {x : Stateful ε σ α} {f : α → Stateful ε σ β} {s s' : σ} {a : α}
    (h : x s = .ok a s') : (x >>= f) s = f a s' := by
  simp only [bind, EStateM.bind, h]

theorem bind_of_error {x : Stateful ε σ α} {f : α → Stateful ε σ β} {s s' : σ} {e : Fault ε}
    (h : x s = .error e s') : (x >>= f) s = .error e s' := by
  simp only [bind, EStateM.bind, h]

theorem bind_of_eq {x y : Stateful ε σ α} {f : α → Stateful ε σ β} {s s' : σ} (h : x s = y s') :
    (x >>= f) s = (y >>= f) s' := by
  simp only [bind, EStateM.bind, h]

theorem pureStep_eq_ok {x : Except (Fault ε) α} {s t : σ} {a : α} :
    (pureStep x : Stateful ε σ α) s = .ok a t ↔ x = .ok a ∧ t = s := by
  cases x <;> simp [pureStep, eq_comm]

theorem stateful_bind_eq_ok {x : Stateful ε σ α} {f : α → Stateful ε σ β} {s t : σ} {b : β} :
    (x >>= f) s = .ok b t ↔ ∃ a s', x s = .ok a s' ∧ f a s' = .ok b t := by
  simp only [bind, EStateM.bind]
  cases x s <;> simp

end TorrentClient
