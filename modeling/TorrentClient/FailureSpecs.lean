import TorrentClient.EffectPrograms

/-!
# Failures of a handler

`Task.wpFail` has a postcondition for each way a handler ends: one for its result and one
for its error. The specifications `everyReply` and `someReply` take the replies from what a
relation admits; the first shows what every run of a handler does, the second what some run
does.
-/
namespace EffectPrograms

variable {E : Type} {R : E → Type} {α β ε σ : Type} {admits : (e : E) → R e → Prop}

namespace Program

/-- Every reply that is admitted is possible. -/
def everyReply (admits : (e : E) → R e → Prop) : CallSpec E R :=
  fun e post => ∀ r, admits e r → post r

/-- One of the replies that are admitted is given. -/
def someReply (admits : (e : E) → R e → Prop) : CallSpec E R :=
  fun e post => ∃ r, admits e r ∧ post r

theorem everyReply_mono : (everyReply admits).Mono :=
  fun _ _ _ h hpost r hr => h r (hpost r hr)

theorem someReply_mono : (someReply admits).Mono := by
  rintro e post post' h ⟨r, hr, hpost⟩
  exact ⟨r, hr, h r hpost⟩

/-- The replies of a run are admitted. -/
def Admitted (admits : (e : E) → R e → Prop) (calls : List (Σ e, R e)) : Prop :=
  ∀ c ∈ calls, admits c.1 c.2

theorem Admitted.nil : Admitted admits [] := by
  intro c hc
  cases hc

theorem wp_everyReply_returns {p : Program E R α} {post : α → Prop}
    (h : wp (everyReply admits) p post) {calls : List (Σ e, R e)} {a : α}
    (hr : Returns p calls a) (hcalls : Admitted admits calls) : post a := by
  induction hr with
  | done a => exact h
  | call r rest ih =>
    obtain ⟨hr, hrest⟩ := List.forall_mem_cons.mp hcalls
    exact ih (h r hr) hrest

theorem returns_of_wp_someReply {p : Program E R α} {post : α → Prop}
    (h : wp (someReply admits) p post) :
    ∃ calls a, Returns p calls a ∧ Admitted admits calls ∧ post a := by
  induction p with
  | done a => exact ⟨[], a, .done a, .nil, h⟩
  | call e next ih =>
    obtain ⟨r, hr, h⟩ := h
    obtain ⟨calls, a, hreturns, hcalls, hpost⟩ := ih r h
    exact ⟨⟨e, r⟩ :: calls, a, .call r hreturns, List.forall_mem_cons.mpr ⟨hr, hcalls⟩, hpost⟩

end Program

namespace Task

/-- A finished handler meets `post`, a failed one `fail`. -/
def onEnd (post : α → σ → Prop) (fail : ε → Prop) : Except ε (α × σ) → Prop
  | .ok (a, s) => post a s
  | .error e => fail e

/-- The weakest precondition for both ways a handler ends. -/
def wpFail (Φ : CallSpec E R) (x : Task E R ε σ α) (post : α → σ → Prop) (fail : ε → Prop)
    (s : σ) : Prop :=
  Program.wp Φ (x s) (onEnd post fail)

variable {Φ : CallSpec E R} {fail : ε → Prop}

@[simp] theorem wpFail_pure (a : α) (post : α → σ → Prop) (s : σ) :
    wpFail Φ (pure a : Task E R ε σ α) post fail s = post a s := rfl

@[simp] theorem wpFail_bind (x : Task E R ε σ α) (f : α → Task E R ε σ β)
    (post : β → σ → Prop) (s : σ) :
    wpFail Φ (x >>= f) post fail s = wpFail Φ x (fun a => wpFail Φ (f a) post fail) fail s := by
  refine (Program.wp_bind Φ (x s) _ _).trans ?_
  refine congrArg (Program.wp Φ (x s)) (funext fun r => ?_)
  match r with
  | .ok (_, _) => rfl
  | .error _ => rfl

@[simp] theorem wpFail_get (post : σ → σ → Prop) (s : σ) :
    wpFail Φ (get : Task E R ε σ σ) post fail s = post s s := rfl

@[simp] theorem wpFail_modify (f : σ → σ) (post : Unit → σ → Prop) (s : σ) :
    wpFail Φ (modify f : Task E R ε σ Unit) post fail s = post () (f s) := rfl

@[simp] theorem wpFail_fail (e : ε) (post : α → σ → Prop) (s : σ) :
    wpFail Φ (Task.fail e : Task E R ε σ α) post fail s = fail e := rfl

@[simp] theorem wpFail_perform (e : E) (post : R e → σ → Prop) (s : σ) :
    wpFail Φ (perform e : Task E R ε σ (R e)) post fail s = Φ e (fun r => post r s) := rfl

@[simp] theorem wpFail_ite (c : Prop) [Decidable c] (x y : Task E R ε σ α)
    (post : α → σ → Prop) (s : σ) :
    wpFail Φ (if c then x else y) post fail s =
      if c then wpFail Φ x post fail s else wpFail Φ y post fail s := by
  split <;> rfl

@[simp] theorem wpFail_runIf (c : Bool) (x : Task E R ε σ Unit) (post : Unit → σ → Prop) (s : σ) :
    wpFail Φ (runIf c x) post fail s = if c then wpFail Φ x post fail s else post () s := by
  cases c <;> rfl

@[simp] theorem wpFail_lift_ok (a : α) (post : α → σ → Prop) (s : σ) :
    wpFail Φ (lift (.ok a) : Task E R ε σ α) post fail s = post a s := rfl

@[simp] theorem wpFail_lift_error (e : ε) (post : α → σ → Prop) (s : σ) :
    wpFail Φ (lift (.error e) : Task E R ε σ α) post fail s = fail e := rfl

theorem wpFail_mono (hΦ : Φ.Mono) {x : Task E R ε σ α} {post post' : α → σ → Prop}
    {fail' : ε → Prop} {s : σ} (hx : wpFail Φ x post fail s)
    (h : ∀ a t, post a t → post' a t) (hfail : ∀ e, fail e → fail' e) :
    wpFail Φ x post' fail' s := by
  refine Program.wp_mono hΦ ?_ hx
  intro r hr
  match r with
  | .ok (a, t) => exact h a t hr
  | .error e => exact hfail e hr

theorem wp_of_wpFail (hΦ : Φ.Mono) {x : Task E R ε σ α} {post : α → σ → Prop} {s : σ}
    (h : wpFail Φ x post fail s) : wp Φ x post s := by
  refine Program.wp_mono hΦ ?_ h
  intro r hr
  match r with
  | .ok (a, t) => exact hr
  | .error _ => trivial

end Task
end EffectPrograms
