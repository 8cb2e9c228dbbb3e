import TorrentClient.MonitoredCalls
import TorrentClient.TransitionRuns

/-!
# Watching a task that handles inputs

A task takes one input after the other and runs a handler for it. A `Watch` is a monitor for
the calls of the handlers that follows the inputs as well. Where every handler keeps a relation
between the state of the task and the value of the watch, all calls of all runs are allowed.
-/
namespace EffectPrograms
open TransitionRuns

variable {I E : Type} {R : E → Type} {ε σ γ : Type}

structure Watch (I E : Type) (R : E → Type) (γ : Type) extends Monitor E R γ where
  hears : I → γ → γ

/-- An input and the calls of its handler. -/
abbrev Round (I E : Type) (R : E → Type) := I × List (Σ e, R e)

namespace Watch

variable {W : Watch I E R γ} {g : γ}

def afterRound (W : Watch I E R γ) (g : γ) (round : Round I E R) : γ :=
  W.afterAll round.2 (W.hears round.1 g)

def afterRounds (W : Watch I E R γ) (g : γ) (rounds : List (Round I E R)) : γ :=
  rounds.foldl W.afterRound g

/-- Every call of the rounds is allowed where it is made. -/
def Keeps (W : Watch I E R γ) (g : γ) (rounds : List (Round I E R)) : Prop :=
  ∀ before round rest, rounds = before ++ round :: rest →
    W.Accepts (W.hears round.1 (W.afterRounds g before)) round.2

theorem Keeps.nil (W : Watch I E R γ) (g : γ) : W.Keeps g [] := by
  intro before round rest hsplit
  cases before <;> cases hsplit

theorem Keeps.snoc {rounds : List (Round I E R)} {round : Round I E R} (h : W.Keeps g rounds)
    (hround : W.Accepts (W.hears round.1 (W.afterRounds g rounds)) round.2) :
    W.Keeps g (rounds ++ [round]) := by
  intro before round' rest hsplit
  rcases List.eq_nil_or_concat rest with rfl | ⟨rest, last, rfl⟩
  · obtain ⟨rfl, hlast⟩ := List.append_inj' hsplit rfl
    cases hlast
    exact hround
  · have hsplit' : rounds ++ [round] = (before ++ round' :: rest) ++ [last] := by
      rw [hsplit, List.concat_eq_append, List.append_assoc, List.cons_append]
    exact h before round' rest (List.append_inj' hsplit' rfl).1

theorem afterRounds_snoc (W : Watch I E R γ) (g : γ) (rounds : List (Round I E R))
    (round : Round I E R) :
    W.afterRounds g (rounds ++ [round]) = W.afterRound (W.afterRounds g rounds) round := by
  rw [afterRounds, List.foldl_append]
  rfl

end Watch

namespace Task

/-- An input is handled, with the calls of its handler. -/
def roundStep (handle : I → Task E R ε σ Unit) (s : σ) (round : Round I E R) (t : σ) : Prop :=
  Finishes (handle round.1) s round.2 () t

variable {handle : I → Task E R ε σ Unit} {W : Watch I E R γ} {rel : σ → γ → Prop}

/-- The handlers keep a relation to the value of the watch, and make allowed calls only. -/
def Watched (handle : I → Task E R ε σ Unit) (W : Watch I E R γ) (rel : σ → γ → Prop) : Prop :=
  ∀ i s g, rel s g →
    monitored W.toMonitor (handle i) (fun _ t g' => rel t g') s (W.hears i g)

/-- In all rounds of a run every call is allowed, and so are those of the next round, whether
its handler succeeds or fails. -/
theorem Watched.run (h : Watched handle W rel) {start s : σ} {g : γ} (hstart : rel start g)
    {trace : List (Step σ (Round I E R))} (run : Run (roundStep handle) start trace s) :
    W.Keeps g (trace.map (·.label)) ∧ rel s (W.afterRounds g (trace.map (·.label))) ∧
      ∀ i calls result, Program.Returns (handle i s) calls result →
        W.Keeps g (trace.map (·.label) ++ [(i, calls)]) := by
  have hkept : W.Keeps g (trace.map (·.label)) ∧
      rel s (W.afterRounds g (trace.map (·.label))) := by
    induction run with
    | nil => exact ⟨.nil W g, hstart⟩
    | @snoc trace s t round run last ih =>
      obtain ⟨hkeeps, hrel⟩ := ih
      obtain ⟨haccepts, hpost⟩ := Program.monitored_returns (h round.1 s _ hrel) last
      rw [List.map_append, List.map_singleton, Watch.afterRounds_snoc]
      exact ⟨hkeeps.snoc haccepts, hpost⟩
  refine ⟨hkept.1, hkept.2, fun i calls result hreturns => ?_⟩
  exact hkept.1.snoc (Program.monitored_returns (h i s _ hkept.2) hreturns).1

end Task
end EffectPrograms
