import Mathlib.Logic.Basic

/-!
# Programs that call out to their environment

A `Program` either is done or performs one call and continues with the reply. The
environment is left open: `Program.Returns` says which results some sequence of
replies leads to, and `Program.wp` folds a specification of the single calls over
the program. `Task` adds a private state and failure, the shape of one event handler
of a concurrent task.
-/
namespace EffectPrograms

/-- A program over the calls `E`, where the call `e` is answered by a value of `R e`. -/
inductive Program (E : Type) (R : E → Type) (α : Type) where
  | done (a : α)
  | call (e : E) (next : R e → Program E R α)

/-- What a single call guarantees: a predicate transformer for every call. -/
abbrev CallSpec (E : Type) (R : E → Type) := (e : E) → (R e → Prop) → Prop

/-- A call guarantees whatever follows from what it guarantees. -/
def CallSpec.Mono {E : Type} {R : E → Type} (Φ : CallSpec E R) : Prop :=
  ∀ (e : E) ⦃post post' : R e → Prop⦄, (∀ r, post r → post' r) → Φ e post → Φ e post'

variable {E : Type} {R : E → Type} {α β ε σ : Type}

namespace Program

def bind : Program E R α → (α → Program E R β) → Program E R β
  | .done a, f => f a
  | .call e next, f => .call e (fun r => (next r).bind f)

theorem bind_done (p : Program E R α) : p.bind .done = p := by
  induction p with
  | done a => rfl
  | call e next ih => exact congrArg (Program.call e) (funext ih)

theorem bind_assoc {γ : Type} (p : Program E R α) (f : α → Program E R β)
    (g : β → Program E R γ) : (p.bind f).bind g = p.bind fun a => (f a).bind g := by
  induction p with
  | done a => rfl
  | call e next ih => exact congrArg (Program.call e) (funext ih)

/-- The program finishes with `a` after the recorded calls and their replies. -/
inductive Returns : Program E R α → List (Σ e, R e) → α → Prop where
  | done (a : α) : Returns (.done a) [] a
  | call {e : E} {next : R e → Program E R α} (r : R e) {calls : List (Σ e, R e)} {a : α}
      (rest : Returns (next r) calls a) : Returns (.call e next) (⟨e, r⟩ :: calls) a

/-- The fold of a specification of the calls over the program. -/
def wp (Φ : CallSpec E R) : Program E R α → (α → Prop) → Prop
  | .done a, post => post a
  | .call e next, post => Φ e (fun r => (next r).wp Φ post)

@[simp] theorem wp_done (Φ : CallSpec E R) (a : α) (post : α → Prop) :
    wp Φ (.done a) post = post a := rfl

@[simp] theorem wp_call (Φ : CallSpec E R) (e : E) (next : R e → Program E R α)
    (post : α → Prop) : wp Φ (.call e next) post = Φ e (fun r => wp Φ (next r) post) := rfl

theorem wp_bind (Φ : CallSpec E R) (p : Program E R α) (f : α → Program E R β)
    (post : β → Prop) : wp Φ (p.bind f) post = wp Φ p (fun a => wp Φ (f a) post) := by
  induction p with
  | done a => rfl
  | call e next ih => exact congrArg (Φ e) (funext ih)

theorem wp_mono {Φ : CallSpec E R} (hΦ : Φ.Mono) {p : Program E R α} {post post' : α → Prop}
    (h : ∀ a, post a → post' a) (hp : wp Φ p post) : wp Φ p post' := by
  induction p with
  | done a => exact h a hp
  | call e next ih => exact hΦ e ih hp

/-- Every reply is possible. -/
def anyReply : CallSpec E R := fun _ post => ∀ r, post r

theorem anyReply_mono : (anyReply : CallSpec E R).Mono :=
  fun _ _ _ h hpost r => h r (hpost r)

theorem wp_anyReply_returns {p : Program E R α} {post : α → Prop} (h : wp anyReply p post)
    {calls : List (Σ e, R e)} {a : α} (hr : Returns p calls a) : post a := by
  induction hr with
  | done a => exact h
  | call r rest ih => exact ih (h r)

/-- The result where every call is answered by one function. -/
def runWith (answer : (e : E) → R e) : Program E R α → α
  | .done a => a
  | .call e next => runWith answer (next (answer e))

theorem returns_runWith (answer : (e : E) → R e) (p : Program E R α) :
    ∃ calls, Returns p calls (p.runWith answer) := by
  induction p with
  | done a => exact ⟨[], .done a⟩
  | call e next ih =>
    obtain ⟨calls, hcalls⟩ := ih (answer e)
    exact ⟨_, .call (answer e) hcalls⟩

end Program

/-- A handler with a private state, which fails or returns a value and the new state. -/
def Task (E : Type) (R : E → Type) (ε σ α : Type) := σ → Program E R (Except ε (α × σ))

namespace Task

instance : Monad (Task E R ε σ) where
  pure a s := .done (.ok (a, s))
  bind x f s := (x s).bind (fun
    | .ok (a, s') => f a s'
    | .error e => .done (.error e))

def get : Task E R ε σ σ := fun s => .done (.ok (s, s))

def modify (f : σ → σ) : Task E R ε σ Unit := fun s => .done (.ok ((), f s))

def fail (e : ε) : Task E R ε σ α := fun _ => .done (.error e)

def perform (e : E) : Task E R ε σ (R e) := fun s => .call e (fun r => .done (.ok (r, s)))

/-- A pure part of a handler. -/
def lift : Except ε α → Task E R ε σ α
  | .ok a => pure a
  | .error e => fail e

/-- `if c { x }` -/
def runIf (c : Bool) (x : Task E R ε σ Unit) : Task E R ε σ Unit := if c then x else pure ()

/-- A finished handler meets `post`; a failed one is not constrained. -/
def onSuccess (post : α → σ → Prop) : Except ε (α × σ) → Prop
  | .ok (a, s) => post a s
  | .error _ => True

/-- Partial correctness of a handler under a specification of its calls. -/
def wp (Φ : CallSpec E R) (x : Task E R ε σ α) (post : α → σ → Prop) (s : σ) : Prop :=
  Program.wp Φ (x s) (onSuccess post)

@[simp] theorem wp_pure (Φ : CallSpec E R) (a : α) (post : α → σ → Prop) (s : σ) :
    wp Φ (pure a : Task E R ε σ α) post s = post a s := rfl

@[simp] theorem wp_bind (Φ : CallSpec E R) (x : Task E R ε σ α) (f : α → Task E R ε σ β)
    (post : β → σ → Prop) (s : σ) :
    wp Φ (x >>= f) post s = wp Φ x (fun a => wp Φ (f a) post) s := by
  refine (Program.wp_bind Φ (x s) _ _).trans ?_
  refine congrArg (Program.wp Φ (x s)) (funext fun r => ?_)
  match r with
  | .ok (_, _) => rfl
  | .error _ => rfl

@[simp] theorem wp_get (Φ : CallSpec E R) (post : σ → σ → Prop) (s : σ) :
    wp Φ (get : Task E R ε σ σ) post s = post s s := rfl

@[simp] theorem wp_modify (Φ : CallSpec E R) (f : σ → σ) (post : Unit → σ → Prop) (s : σ) :
    wp Φ (modify f : Task E R ε σ Unit) post s = post () (f s) := rfl

@[simp] theorem wp_fail (Φ : CallSpec E R) (e : ε) (post : α → σ → Prop) (s : σ) :
    wp Φ (fail e : Task E R ε σ α) post s = True := rfl

@[simp] theorem wp_perform (Φ : CallSpec E R) (e : E) (post : R e → σ → Prop) (s : σ) :
    wp Φ (perform e : Task E R ε σ (R e)) post s = Φ e (fun r => post r s) := rfl

@[simp] theorem wp_ite (Φ : CallSpec E R) (c : Prop) [Decidable c] (x y : Task E R ε σ α)
    (post : α → σ → Prop) (s : σ) :
    wp Φ (if c then x else y) post s = if c then wp Φ x post s else wp Φ y post s := by
  split <;> rfl

@[simp] theorem wp_lift (Φ : CallSpec E R) (x : Except ε α) (post : α → σ → Prop) (s : σ) :
    wp Φ (lift x : Task E R ε σ α) post s = ∀ a, x = .ok a → post a s := by
  cases x with
  | ok a => simp [lift]
  | error e => simp [lift]

@[simp] theorem wp_runIf (Φ : CallSpec E R) (c : Bool) (x : Task E R ε σ Unit)
    (post : Unit → σ → Prop) (s : σ) :
    wp Φ (runIf c x) post s = if c then wp Φ x post s else post () s := by
  cases c <;> rfl

theorem wp_mono {Φ : CallSpec E R} (hΦ : Φ.Mono) {x : Task E R ε σ α} {post post' : α → σ → Prop}
    {s : σ} (hx : wp Φ x post s) (h : ∀ a t, post a t → post' a t) : wp Φ x post' s := by
  refine Program.wp_mono hΦ ?_ hx
  intro r hr
  match r with
  | .ok (a, t) => exact h a t hr
  | .error _ => trivial

/-- Some sequence of replies lets the handler finish in the given state. -/
def Finishes (x : Task E R ε σ α) (s : σ) (calls : List (Σ e, R e)) (a : α) (s' : σ) : Prop :=
  Program.Returns (x s) calls (.ok (a, s'))

theorem Finishes.post {x : Task E R ε σ α} {s s' : σ} {calls : List (Σ e, R e)} {a : α}
    (h : Finishes x s calls a s') {post : α → σ → Prop} (hw : wp Program.anyReply x post s) :
    post a s' :=
  Program.wp_anyReply_returns hw h

end Task
end EffectPrograms
