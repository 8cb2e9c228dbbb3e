import TorrentClient.FailureSpecs

/-!
# All ends of a handler

`Ends` holds of every result and every error in which a handler ends for some replies that
are admitted, and of no others. It is computed along the handler.
-/
namespace EffectPrograms

variable {E : Type} {R : E → Type} {α β ε σ : Type} {admits : (e : E) → R e → Prop}

namespace Program

/-- Some sequence of admitted replies lets the program finish with the result. -/
def Ends (admits : (e : E) → R e → Prop) (p : Program E R α) (a : α) : Prop :=
  ∃ calls, Returns p calls a ∧ Admitted admits calls

theorem ends_done (a b : α) : Ends admits (.done a) b ↔ b = a := by
  constructor
  · rintro ⟨calls, hreturns, -⟩
    cases hreturns
    rfl
  · rintro rfl
    exact ⟨[], .done b, .nil⟩

theorem ends_call {e : E} {next : R e → Program E R α} {a : α} :
    Ends admits (.call e next) a ↔ ∃ r, admits e r ∧ Ends admits (next r) a := by
  constructor
  · rintro ⟨calls, hreturns, hcalls⟩
    cases hreturns with
    | call r rest =>
      obtain ⟨hr, hrest⟩ := List.forall_mem_cons.mp hcalls
      exact ⟨r, hr, _, rest, hrest⟩
  · rintro ⟨r, hr, calls, hreturns, hcalls⟩
    exact ⟨⟨e, r⟩ :: calls, .call r hreturns, List.forall_mem_cons.mpr ⟨hr, hcalls⟩⟩

theorem ends_bind {p : Program E R α} {f : α → Program E R β} {b : β} :
    Ends admits (p.bind f) b ↔ ∃ a, Ends admits p a ∧ Ends admits (f a) b := by
  induction p with
  | done a => simp [Program.bind, ends_done]
  | call e next ih =>
    simp only [Program.bind, ends_call, ih]
    constructor
    · rintro ⟨r, hr, a, hnext, hf⟩
      exact ⟨a, ⟨r, hr, hnext⟩, hf⟩
    · rintro ⟨a, ⟨r, hr, hnext⟩, hf⟩
      exact ⟨r, hr, a, hnext, hf⟩

end Program

namespace Task

/-- Some sequence of admitted replies lets the handler end in the result or the error. -/
def Ends (admits : (e : E) → R e → Prop) (x : Task E R ε σ α) (s : σ)
    (r : Except ε (α × σ)) : Prop :=
  Program.Ends admits (x s) r

variable {x : Task E R ε σ α} {f : α → Task E R ε σ β} {s : σ} {a : α}

theorem ends_pure {r : Except ε (α × σ)} :
    Ends admits (pure a : Task E R ε σ α) s r ↔ r = .ok (a, s) :=
  Program.ends_done _ r

theorem ends_lift_ok_bind {r : Except ε (β × σ)} :
    Ends admits ((lift (.ok a) : Task E R ε σ α) >>= f) s r ↔ Ends admits (f a) s r := Iff.rfl

theorem ends_lift_error_bind {e : ε} {r : Except ε (β × σ)} :
    Ends admits ((lift (.error e) : Task E R ε σ α) >>= f) s r ↔ r = .error e :=
  Program.ends_done _ r

theorem ends_perform_bind {e : E} {f : R e → Task E R ε σ β} {r : Except ε (β × σ)} :
    Ends admits (perform e >>= f) s r ↔ ∃ reply, admits e reply ∧ Ends admits (f reply) s r :=
  Program.ends_call

/-- A handler that follows another one starts where that one ends. -/
theorem ends_bind {r : Except ε (β × σ)} : Ends admits (x >>= f) s r ↔
    (∃ a t, Ends admits x s (.ok (a, t)) ∧ Ends admits (f a) t r) ∨
      ∃ e, Ends admits x s (.error e) ∧ r = .error e := by
  refine Program.ends_bind.trans ?_
  constructor
  · rintro ⟨q, hx, hf⟩
    match q with
    | .ok (a, t) => exact Or.inl ⟨a, t, hx, hf⟩
    | .error e => exact Or.inr ⟨e, hx, (Program.ends_done _ r).mp hf⟩
  · rintro (⟨a, t, hx, hf⟩ | ⟨e, hx, rfl⟩)
    · exact ⟨.ok (a, t), hx, hf⟩
    · exact ⟨.error e, hx, (Program.ends_done _ _).mpr rfl⟩

/-- Where the first handler cannot fail, the second one always follows. -/
theorem ends_bind_of_ok (hx : ∀ e, ¬ Ends admits x s (.error e)) {r : Except ε (β × σ)} :
    Ends admits (x >>= f) s r ↔ ∃ a t, Ends admits x s (.ok (a, t)) ∧ Ends admits (f a) t r := by
  rw [ends_bind]
  constructor
  · rintro (h | ⟨e, he, -⟩)
    · exact h
    · exact absurd he (hx e)
  · exact Or.inl

end Task
end EffectPrograms
