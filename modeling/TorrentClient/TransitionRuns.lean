import Mathlib.Data.List.Basic

/-!
# Finite runs of a labelled transition system

A run records, for every step it took, the state before the step, the label and
the state after it. Properties of whole runs are derived from what a single step
preserves: `Run.invariant` is the induction rule, and `Run.forall_after_iff`
turns an exact condition on one step into an exact condition on the whole run.
-/
namespace TransitionRuns

variable {σ ε : Type*}

/-- One recorded step: the state before it, its label and the state after it. -/
structure Step (σ ε : Type*) where
  before : σ
  label : ε
  after : σ

/-- Finite runs, extended at their last state. -/
inductive Run (step : σ → ε → σ → Prop) (start : σ) : List (Step σ ε) → σ → Prop where
  | nil : Run step start [] start
  | snoc {trace : List (Step σ ε)} {s t : σ} {e : ε} (run : Run step start trace s)
      (last : step s e t) : Run step start (trace ++ [⟨s, e, t⟩]) t

/-- The states some run reaches. -/
def Reachable (step : σ → ε → σ → Prop) (start s : σ) : Prop :=
  ∃ trace, Run step start trace s

variable {step : σ → ε → σ → Prop} {start s : σ} {trace : List (Step σ ε)}

theorem Reachable.refl : Reachable step start start := ⟨[], .nil⟩

theorem Reachable.tail {t : σ} {e : ε} (h : Reachable step start s) (hs : step s e t) :
    Reachable step start t := by
  obtain ⟨trace, run⟩ := h
  exact ⟨_, run.snoc hs⟩

theorem Reachable.trans {t : σ} (h : Reachable step start s) (h' : Reachable step s t) :
    Reachable step start t := by
  obtain ⟨trace, run⟩ := h'
  induction run with
  | nil => exact h
  | snoc run last ih => exact ih.tail last

theorem Run.step_of_mem (run : Run step start trace s) {x : Step σ ε} (hx : x ∈ trace) :
    step x.before x.label x.after := by
  induction run with
  | nil => cases hx
  | snoc run last ih =>
    rcases List.mem_append.mp hx with hx | hx
    · exact ih hx
    · obtain rfl := List.mem_singleton.mp hx
      exact last

theorem Run.mono {step' : σ → ε → σ → Prop} (run : Run step start trace s)
    (h : ∀ s e t, step s e t → step' s e t) : Run step' start trace s := by
  induction run with
  | nil => exact .nil
  | snoc run last ih => exact ih.snoc (h _ _ _ last)

theorem Run.reachable_before (run : Run step start trace s) {x : Step σ ε} (hx : x ∈ trace) :
    Reachable step start x.before := by
  induction run with
  | nil => simp at hx
  | snoc run last ih =>
    rcases List.mem_append.mp hx with hx | hx
    · exact ih hx
    · obtain rfl := List.mem_singleton.mp hx
      exact ⟨_, run⟩

/-- The induction rule for runs: a step may use that it is one of the recorded ones. -/
theorem Run.invariant_of_mem {inv : σ → Prop} (run : Run step start trace s) (hinit : inv start)
    (hstep : ∀ x ∈ trace, inv x.before → step x.before x.label x.after → inv x.after) : inv s := by
  induction run with
  | nil => exact hinit
  | snoc run last ih =>
    have hs := ih (fun x hx => hstep x (List.mem_append_left _ hx))
    exact hstep _ (List.mem_append_right _ List.mem_cons_self) hs last

theorem Run.invariant {inv : σ → Prop} (run : Run step start trace s) (hinit : inv start)
    (hstep : ∀ s e t, inv s → step s e t → inv t) : inv s :=
  run.invariant_of_mem hinit (fun _ _ => hstep _ _ _)

theorem Reachable.invariant {inv : σ → Prop} (h : Reachable step start s) (hinit : inv start)
    (hstep : ∀ s e t, inv s → step s e t → inv t) : inv s := by
  obtain ⟨_, run⟩ := h
  exact run.invariant hinit hstep

/-- The induction rule for reachable states: a step may use that its state is one of them. -/
theorem Reachable.invariant_of_reachable {inv : σ → Prop} (h : Reachable step start s)
    (hinit : inv start)
    (hstep : ∀ s e t, Reachable step start s → inv s → step s e t → inv t) : inv s := by
  obtain ⟨_, run⟩ := h
  exact run.invariant_of_mem hinit fun x hx => hstep _ _ _ (run.reachable_before hx)

/-- A relation kept by every step between its two states and closed under
composition holds between the ends of a run. -/
theorem Run.relate {rel : σ → σ → Prop} (run : Run step start trace s) (hrefl : ∀ s, rel s s)
    (htrans : ∀ a b c, rel a b → rel b c → rel a c)
    (hstep : ∀ x ∈ trace, step x.before x.label x.after → rel x.before x.after) :
    rel start s := by
  induction run with
  | nil => exact hrefl _
  | snoc run last ih =>
    have hs := ih (fun x hx => hstep x (List.mem_append_left _ hx))
    exact htrans _ _ _ hs (hstep _ (List.mem_append_right _ List.mem_cons_self) last)

/-- Where one step restores the invariant `inv` exactly when its state before and
its label meet `cond`, every state of a run satisfies `inv` exactly when all steps
of the run meet `cond`. `aux` is a second invariant, kept as long as `inv` holds. -/
theorem Run.forall_after_iff {aux inv : σ → Prop} {cond : σ → ε → Prop}
    (run : Run step start trace s) (haux : aux start) (hinit : inv start)
    (hstep : ∀ s e t, aux s → inv s → step s e t → aux t ∧ (inv t ↔ cond s e)) :
    (∀ x ∈ trace, inv x.after) ↔ ∀ x ∈ trace, cond x.before x.label := by
  have key : ((∀ x ∈ trace, inv x.after) → aux s ∧ inv s) ∧
      ((∀ x ∈ trace, inv x.after) ↔ ∀ x ∈ trace, cond x.before x.label) := by
    induction run with
    | nil => exact ⟨fun _ => ⟨haux, hinit⟩, by simp⟩
    | snoc run last ih =>
      obtain ⟨hi, hiff⟩ := ih
      constructor
      · intro h
        rw [List.forall_mem_append] at h
        obtain ⟨ha, hinv⟩ := hi h.1
        exact ⟨(hstep _ _ _ ha hinv last).1, h.2 _ List.mem_cons_self⟩
      · simp only [List.forall_mem_append, List.forall_mem_singleton]
        rw [← hiff]
        refine and_congr_right fun h => ?_
        obtain ⟨ha, hinv⟩ := hi h
        exact (hstep _ _ _ ha hinv last).2
  exact key.2

/-- A step that is a partial function is run along a list of labels. -/
theorem run_of_foldlM {f : σ → ε → Option σ} {labels : List ε} {t : σ}
    (run : Run (fun s e t => f s e = some t) start trace s) (h : labels.foldlM f s = some t) :
    ∃ trace', Run (fun s e t => f s e = some t) start trace' t ∧
      trace'.map (·.label) = trace.map (·.label) ++ labels := by
  induction labels generalizing s trace with
  | nil =>
    cases h
    exact ⟨trace, run, (List.append_nil _).symm⟩
  | cons e labels ih =>
    rw [List.foldlM_cons] at h
    obtain ⟨u, hu, h⟩ := Option.bind_eq_some_iff.mp h
    obtain ⟨trace', hrun, hlabels⟩ := ih (run.snoc hu) h
    exact ⟨trace', hrun, by simp [hlabels]⟩

theorem Run.forall_after_iff_of_step {inv : σ → Prop} {cond : σ → ε → Prop}
    (run : Run step start trace s) (hinit : inv start)
    (hstep : ∀ s e t, inv s → step s e t → (inv t ↔ cond s e)) :
    (∀ x ∈ trace, inv x.after) ↔ ∀ x ∈ trace, cond x.before x.label :=
  run.forall_after_iff trivial hinit fun s e t (_ : True) hs h => ⟨trivial, hstep s e t hs h⟩

end TransitionRuns
