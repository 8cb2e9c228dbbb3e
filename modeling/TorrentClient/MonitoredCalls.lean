import TorrentClient.EffectPrograms

/-!
# Monitors for the calls of a program

A `Monitor` watches the calls of a program: it has a value of its own that every call and
its reply change, and it may forbid a call. `Program.monitored` folds it over the program
together with a postcondition on the result and the last value. A program that makes only
calls a monitor ignores needs no more than the weakest precondition.
-/
namespace EffectPrograms

/-- A value that the calls of a program change, and the calls that it allows. -/
structure Monitor (E : Type) (R : E → Type) (γ : Type) where
  allows : E → γ → Prop
  after : (e : E) → R e → γ → γ

variable {E : Type} {R : E → Type} {α β ε σ γ : Type}

namespace Monitor

/-- The value after some calls. -/
def afterAll (M : Monitor E R γ) (calls : List (Σ e, R e)) (g : γ) : γ :=
  calls.foldl (fun g c => M.after c.1 c.2 g) g

/-- Each of the calls is allowed where it is made. -/
def Accepts (M : Monitor E R γ) (g : γ) (calls : List (Σ e, R e)) : Prop :=
  ∀ before c rest, calls = before ++ c :: rest → M.allows c.1 (M.afterAll before g)

/-- The monitor allows the call and does not change. -/
def Ignores (M : Monitor E R γ) (g : γ) (e : E) : Prop :=
  M.allows e g ∧ ∀ r, M.after e r g = g

theorem Accepts.nil (M : Monitor E R γ) (g : γ) : M.Accepts g [] := by
  intro before c rest hsplit
  cases before with
  | nil => cases hsplit
  | cons c' before => cases hsplit

theorem Accepts.cons {M : Monitor E R γ} {g : γ} {e : E} {r : R e} {calls : List (Σ e, R e)}
    (he : M.allows e g) (h : M.Accepts (M.after e r g) calls) : M.Accepts g (⟨e, r⟩ :: calls) := by
  intro before c rest hsplit
  cases before with
  | nil =>
    cases hsplit
    exact he
  | cons c' before =>
    cases hsplit
    exact h before c rest rfl

theorem Accepts.of_cons {M : Monitor E R γ} {g : γ} {e : E} {r : R e}
    {calls : List (Σ e, R e)} (h : M.Accepts g (⟨e, r⟩ :: calls)) :
    M.allows e g ∧ M.Accepts (M.after e r g) calls := by
  refine ⟨h [] ⟨e, r⟩ calls rfl, fun before c rest hsplit => ?_⟩
  exact h (⟨e, r⟩ :: before) c rest (congrArg (_ :: ·) hsplit)

end Monitor

namespace Program

def monitored (M : Monitor E R γ) : Program E R α → (α → γ → Prop) → γ → Prop
  | .done a, post, g => post a g
  | .call e next, post, g => M.allows e g ∧ ∀ r, (next r).monitored M post (M.after e r g)

variable {M : Monitor E R γ}

theorem monitored_bind (p : Program E R α) (f : α → Program E R β) (post : β → γ → Prop) (g : γ) :
    (p.bind f).monitored M post g =
      p.monitored M (fun a g' => (f a).monitored M post g') g := by
  induction p generalizing g with
  | done a => rfl
  | call e next ih =>
    refine congrArg (M.allows e g ∧ ·) (forall_congr fun r => ?_)
    exact ih r (M.after e r g)

theorem monitored_mono {p : Program E R α} {post post' : α → γ → Prop}
    (h : ∀ a g, post a g → post' a g) {g : γ} (hp : p.monitored M post g) :
    p.monitored M post' g := by
  induction p generalizing g with
  | done a => exact h a g hp
  | call e next ih => exact ⟨hp.1, fun r => ih r (hp.2 r)⟩

/-- What a monitored program calls is allowed, and its postcondition holds of the last value. -/
theorem monitored_returns {p : Program E R α} {post : α → γ → Prop} {g : γ}
    (h : p.monitored M post g) {calls : List (Σ e, R e)} {a : α} (hr : Returns p calls a) :
    M.Accepts g calls ∧ post a (M.afterAll calls g) := by
  induction hr generalizing g with
  | done a => exact ⟨.nil M g, h⟩
  | call r rest ih =>
    obtain ⟨haccepts, hpost⟩ := ih (h.2 r)
    exact ⟨haccepts.cons h.1, hpost⟩

/-- Every call that the program may make satisfies `P`. -/
def only (P : E → Prop) : Program E R α → Prop
  | .done _ => True
  | .call e next => P e ∧ ∀ r, (next r).only P

theorem only_bind {P : E → Prop} {p : Program E R α} {f : α → Program E R β} (hp : p.only P)
    (hf : ∀ a, (f a).only P) : (p.bind f).only P := by
  induction p with
  | done a => exact hf a
  | call e next ih => exact ⟨hp.1, fun r => ih r (hp.2 r)⟩

theorem only_mono {P Q : E → Prop} (h : ∀ e, P e → Q e) {p : Program E R α} (hp : p.only P) :
    p.only Q := by
  induction p with
  | done a => trivial
  | call e next ih => exact ⟨h e hp.1, fun r => ih r (hp.2 r)⟩

/-- The monitor does not change where the program makes only calls that it ignores. -/
theorem monitored_of_only {g : γ} {p : Program E R α} (hp : p.only (M.Ignores g))
    {post : α → Prop} (h : wp anyReply p post) :
    p.monitored M (fun a g' => post a ∧ g' = g) g := by
  induction p with
  | done a => exact ⟨h, rfl⟩
  | call e next ih =>
    refine ⟨hp.1.1, fun r => ?_⟩
    rw [hp.1.2 r]
    exact ih r (hp.2 r) (h r)

end Program

namespace Task

/-- A handler under a monitor; a failed one has to meet no postcondition. -/
def monitored (M : Monitor E R γ) (x : Task E R ε σ α) (post : α → σ → γ → Prop) (s : σ)
    (g : γ) : Prop :=
  Program.monitored M (x s) (fun r g' => onSuccess (fun a t => post a t g') r) g

variable {M : Monitor E R γ}

@[simp] theorem monitored_pure (a : α) (post : α → σ → γ → Prop) (s : σ) (g : γ) :
    monitored M (pure a : Task E R ε σ α) post s g = post a s g := rfl

@[simp] theorem monitored_bind (x : Task E R ε σ α) (f : α → Task E R ε σ β)
    (post : β → σ → γ → Prop) (s : σ) (g : γ) :
    monitored M (x >>= f) post s g = monitored M x (fun a => monitored M (f a) post) s g := by
  refine (Program.monitored_bind (x s) _ _ g).trans ?_
  refine congrArg (fun post => Program.monitored M (x s) post g) (funext fun r => funext fun g' => ?_)
  match r with
  | .ok (_, _) => rfl
  | .error _ => rfl

@[simp] theorem monitored_get (post : σ → σ → γ → Prop) (s : σ) (g : γ) :
    monitored M (get : Task E R ε σ σ) post s g = post s s g := rfl

@[simp] theorem monitored_modify (f : σ → σ) (post : Unit → σ → γ → Prop) (s : σ) (g : γ) :
    monitored M (modify f : Task E R ε σ Unit) post s g = post () (f s) g := rfl

@[simp] theorem monitored_fail (e : ε) (post : α → σ → γ → Prop) (s : σ) (g : γ) :
    monitored M (fail e : Task E R ε σ α) post s g = True := rfl

@[simp] theorem monitored_perform (e : E) (post : R e → σ → γ → Prop) (s : σ) (g : γ) :
    monitored M (perform e : Task E R ε σ (R e)) post s g =
      (M.allows e g ∧ ∀ r, post r s (M.after e r g)) := rfl

@[simp] theorem monitored_ite (c : Prop) [Decidable c] (x y : Task E R ε σ α)
    (post : α → σ → γ → Prop) (s : σ) (g : γ) :
    monitored M (if c then x else y) post s g =
      if c then monitored M x post s g else monitored M y post s g := by
  split <;> rfl

@[simp] theorem monitored_lift (x : Except ε α) (post : α → σ → γ → Prop) (s : σ) (g : γ) :
    monitored M (lift x : Task E R ε σ α) post s g = ∀ a, x = .ok a → post a s g := by
  cases x with
  | ok a => simp [lift]
  | error e => simp [lift]

@[simp] theorem monitored_runIf (c : Bool) (x : Task E R ε σ Unit) (post : Unit → σ → γ → Prop)
    (s : σ) (g : γ) :
    monitored M (runIf c x) post s g = if c then monitored M x post s g else post () s g := by
  cases c <;> rfl

theorem monitored_mono {x : Task E R ε σ α} {post post' : α → σ → γ → Prop} {s : σ} {g : γ}
    (hx : monitored M x post s g) (h : ∀ a t g', post a t g' → post' a t g') :
    monitored M x post' s g := by
  refine Program.monitored_mono ?_ hx
  intro r g' hr
  match r with
  | .ok (a, t) => exact h a t g' hr
  | .error _ => trivial

/-- Every call of the handler satisfies `P`, whatever state it starts in. -/
def only (P : E → Prop) (x : Task E R ε σ α) : Prop := ∀ s, Program.only P (x s)

variable {P : E → Prop}

theorem only.mono {x : Task E R ε σ α} {Q : E → Prop} (hx : only P x) (h : ∀ e, P e → Q e) :
    only Q x :=
  fun s => Program.only_mono h (hx s)

@[simp] theorem only_pure (a : α) : only P (pure a : Task E R ε σ α) := fun _ => trivial

@[simp] theorem only_get : only P (get : Task E R ε σ σ) := fun _ => trivial

@[simp] theorem only_modify (f : σ → σ) : only P (modify f : Task E R ε σ Unit) := fun _ => trivial

@[simp] theorem only_fail (e : ε) : only P (fail e : Task E R ε σ α) := fun _ => trivial

@[simp] theorem only_lift (x : Except ε α) : only P (lift x : Task E R ε σ α) := by
  cases x with
  | ok a => exact only_pure a
  | error e => exact only_fail e

theorem only_perform {e : E} (h : P e) : only P (perform e : Task E R ε σ (R e)) :=
  fun _ => ⟨h, fun _ => trivial⟩

theorem only_bind {x : Task E R ε σ α} {f : α → Task E R ε σ β} (hx : only P x)
    (hf : ∀ a, only P (f a)) : only P (x >>= f) := by
  intro s
  apply Program.only_bind (hx s)
  intro r
  match r with
  | .ok (a, t) => exact hf a t
  | .error _ => trivial

theorem only_ite {c : Prop} [Decidable c] {x y : Task E R ε σ α} (hx : only P x) (hy : only P y) :
    only P (if c then x else y) := by
  split
  · exact hx
  · exact hy

theorem only_runIf {c : Bool} {x : Task E R ε σ Unit} (hx : only P x) : only P (runIf c x) :=
  only_ite hx (only_pure ())

/-- A handler that makes only calls the monitor ignores. -/
theorem monitored_of_only {x : Task E R ε σ α} {s : σ} {g : γ} (hx : only (M.Ignores g) x)
    {post : α → σ → Prop} (h : wp Program.anyReply x post s) :
    monitored M x (fun a t g' => post a t ∧ g' = g) s g := by
  refine Program.monitored_mono ?_ (Program.monitored_of_only (hx s) h)
  intro r g' hr
  match r with
  | .ok (_, _) => exact hr
  | .error _ => trivial

end Task
end EffectPrograms
