import Mathlib.Logic.Basic

/-!
# Stateful programs on related states

Two programs end alike when they give the same value in related states, or fail in the same way.
-/
namespace StateSimulations

variable {ε σ τ α β : Type} {R : σ → τ → Prop} {E : σ → τ → Prop}

/-- `E` relates the states in which both failed. -/
inductive Alike (R E : σ → τ → Prop) : EStateM.Result ε σ α → EStateM.Result ε τ α → Prop
  | ok {s : σ} {t : τ} (a : α) (h : R s t) : Alike R E (.ok a s) (.ok a t)
  | error {s : σ} {t : τ} (e : ε) (h : E s t) : Alike R E (.error e s) (.error e t)

/-- The programs end alike from related states. -/
def Simulates (R E : σ → τ → Prop) (x : EStateM ε σ α) (y : EStateM ε τ α) : Prop :=
  ∀ s t, R s t → Alike R E (x s) (y t)

namespace Alike

variable {x : EStateM ε σ α} {y : EStateM ε τ α} {f : α → EStateM ε σ β} {g : α → EStateM ε τ β}
  {s : σ} {t : τ}

theorem bind (h : Alike R E (x s) (y t)) (hfg : ∀ a, Simulates R E (f a) (g a)) :
    Alike R E ((x >>= f) s) ((y >>= g) t) := by
  simp only [Bind.bind, EStateM.bind]
  revert h
  generalize x s = r, y t = r'
  rintro (⟨a, h⟩ | ⟨e, h⟩)
  · exact hfg a _ _ h
  · exact .error e h

theorem mono {R' E' : σ → τ → Prop} {r : EStateM.Result ε σ α} {r' : EStateM.Result ε τ α}
    (h : Alike R E r r') (hR : ∀ s t, R s t → R' s t) (hE : ∀ s t, E s t → E' s t) :
    Alike R' E' r r' := by
  cases h with
  | ok a h => exact .ok a (hR _ _ h)
  | error e h => exact .error e (hE _ _ h)

end Alike

namespace Simulates

variable {x : EStateM ε σ α} {y : EStateM ε τ α} {f : α → EStateM ε σ β} {g : α → EStateM ε τ β}

theorem pure (a : α) : Simulates R E (pure a : EStateM ε σ α) (Pure.pure a) :=
  fun _ _ h => .ok a h

theorem throw (hE : ∀ s t, R s t → E s t) (e : ε) :
    Simulates R E (throw e : EStateM ε σ α) (MonadExcept.throw e) :=
  fun s t h => .error e (hE s t h)

theorem bind (h : Simulates R E x y) (hfg : ∀ a, Simulates R E (f a) (g a)) :
    Simulates R E (x >>= f) (y >>= g) :=
  fun s t hst => (h s t hst).bind hfg

theorem get_bind {f : σ → EStateM ε σ β} {g : τ → EStateM ε τ β}
    (h : ∀ s t, R s t → Alike R E (f s s) (g t t)) :
    Simulates R E (get >>= f) (get >>= g) := h

theorem modify {f : σ → σ} {g : τ → τ} (h : ∀ s t, R s t → R (f s) (g t)) :
    Simulates R E (modify f : EStateM ε σ Unit) (modify g) :=
  fun s t hst => .ok () (h s t hst)

theorem ite {c : Prop} [Decidable c] {x' : EStateM ε σ α} {y' : EStateM ε τ α}
    (h : Simulates R E x y) (h' : Simulates R E x' y') :
    Simulates R E (if c then x else x') (if c then y else y') := by
  by_cases hc : c
  · rwa [if_pos hc, if_pos hc]
  · rwa [if_neg hc, if_neg hc]

end Simulates
end StateSimulations
