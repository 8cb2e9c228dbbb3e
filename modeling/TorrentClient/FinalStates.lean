import TorrentClient.CheckedOperations
import Mathlib.Order.Defs.Unbundled

/-!
# The states that a program leaves

A stateful program leaves a state whether it succeeds or fails. A relation between the states
before and after that is reflexive and transitive is kept by a program if its parts keep it.
-/
namespace FinalStates

open TorrentClient

variable {ε σ α β : Type} {R : σ → σ → Prop}

/-- The state that is left. -/
def finalState : EStateM.Result ε σ α → σ
  | .ok _ s => s
  | .error _ s => s

/-- However the program ends, its last state is related to its first one. -/
def Stays (R : σ → σ → Prop) (x : EStateM ε σ α) : Prop := ∀ s, R s (finalState (x s))

variable {x : EStateM ε σ α} {f : α → EStateM ε σ β} {s : σ}

theorem Stays.ok {a : α} {t : σ} (h : Stays R x) (hx : x s = .ok a t) : R s t := by
  have hs := h s
  rwa [hx] at hs

theorem Stays.error {e : ε} {t : σ} (h : Stays R x) (hx : x s = .error e t) : R s t := by
  have hs := h s
  rwa [hx] at hs

/-- What happens next begins where the first part ends. -/
theorem final_bind [IsTrans σ R] (hx : R s (finalState (x s)))
    (hf : ∀ a t, x s = .ok a t → R t (finalState (f a t))) : R s (finalState ((x >>= f) s)) := by
  simp only [Bind.bind, EStateM.bind]
  cases h : x s with
  | ok a t =>
    rw [h] at hx
    exact IsTrans.trans _ _ _ hx (hf a t h)
  | error e t =>
    rw [h] at hx
    exact hx

theorem Stays.bind [IsTrans σ R] (hx : Stays R x) (hf : ∀ a, Stays R (f a)) :
    Stays R (x >>= f) :=
  fun s => final_bind (hx s) fun a t _ => hf a t

theorem stays_pure [Std.Refl R] (a : α) : Stays R (pure a : EStateM ε σ α) :=
  fun s => Std.Refl.refl s

theorem stays_throw [Std.Refl R] (e : ε) : Stays R (throw e : EStateM ε σ α) :=
  fun s => Std.Refl.refl s

/-- A part that reads the state may use that it is the one that is left. -/
theorem stays_get_bind {f : σ → EStateM ε σ β} (h : ∀ s, R s (finalState (f s s))) :
    Stays R (get >>= f) := h

theorem stays_modify {g : σ → σ} (h : ∀ s, R s (g s)) :
    Stays R (modify g : EStateM ε σ PUnit) := h

section Faults

variable {f : α → Stateful ε σ β}

theorem stays_pureStep [Std.Refl R] (x : Except (Fault ε) α) :
    Stays R (pureStep x : Stateful ε σ α) := by
  cases x with
  | ok a => exact stays_pure a
  | error e => exact stays_throw e

/-- A pure part leaves the state as it is. -/
theorem final_pureStep_bind [Std.Refl R] {x : Except (Fault ε) α} {s : σ}
    (h : ∀ a, x = .ok a → R s (finalState (f a s))) :
    R s (finalState ((pureStep x >>= f) s)) := by
  cases x with
  | ok a =>
    rw [bind_of_ok (pureStep_ok a s)]
    exact h a rfl
  | error e =>
    rw [bind_of_error (pureStep_error e s)]
    exact Std.Refl.refl s

theorem stays_runIf [Std.Refl R] (c : Bool) {x : Stateful ε σ Unit} (h : Stays R x) :
    Stays R (runIf c x) := by
  cases c with
  | true => exact h
  | false => exact stays_pure ()

end Faults
end FinalStates
