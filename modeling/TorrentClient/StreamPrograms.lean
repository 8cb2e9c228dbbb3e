import TorrentClient.EffectPrograms
import TorrentClient.TransitionRuns

/-!
# Two programs joined by streams

Two programs write to each other and read from each other, each at its own pace. What one
writes is put behind what the other has not read yet, a read waits until there is enough,
and it fails once the other program is over and there will never be enough. The moves of the
two programs commute, so all runs that come to rest do so in the same state and after the
same number of moves.
-/
namespace TransitionRuns

variable {σ ε : Type*} {step : σ → ε → σ → Prop} {s t u : σ} {n : ℕ}

/-- Two steps out of a state lead to the same state or are joined by one more step each. -/
def Diamond (step : σ → ε → σ → Prop) : Prop :=
  ∀ ⦃s e t e' t'⦄, step s e t → step s e' t' →
    t = t' ∨ ∃ f f' u, step t f u ∧ step t' f' u

def Stuck (step : σ → ε → σ → Prop) (s : σ) : Prop := ∀ e t, ¬ step s e t

/-- Some `n` steps lead to the state, which has no step. -/
inductive Rests (step : σ → ε → σ → Prop) : σ → ℕ → σ → Prop where
  | stuck {s : σ} (h : Stuck step s) : Rests step s 0 s
  | step {s t u : σ} {e : ε} {n : ℕ} (first : step s e t) (rest : Rests step t n u) :
      Rests step s (n + 1) u

theorem Rests.isStuck (h : Rests step s n u) : Stuck step u := by
  induction h with
  | stuck h => exact h
  | step first rest ih => exact ih

theorem Rests.reachable (h : Rests step s n u) : Reachable step s u := by
  induction h with
  | stuck h => exact .refl
  | step first rest ih => exact (Reachable.refl.tail first).trans ih

theorem Diamond.rests_of_step (hd : Diamond step) (h : Rests step s n u) {e : ε}
    (hst : step s e t) : ∃ m, n = m + 1 ∧ Rests step t m u := by
  induction h generalizing t e with
  | stuck h => exact absurd hst (h e t)
  | @step s v u e' n first rest ih =>
    refine ⟨n, rfl, ?_⟩
    rcases hd first hst with rfl | ⟨f, f', w, hv, ht⟩
    · exact rest
    · obtain ⟨m, rfl, hw⟩ := ih hv
      exact .step ht hw

/-- What is left of the way to rest behind any run. -/
theorem Diamond.rests_of_run (hd : Diamond step) (h : Rests step s n u)
    {trace : List (Step σ ε)} (run : Run step s trace t) :
    ∃ m, n = trace.length + m ∧ Rests step t m u := by
  induction run with
  | nil => exact ⟨n, (Nat.zero_add n).symm, h⟩
  | snoc run last ih =>
    obtain ⟨m, hm, hrest⟩ := ih
    obtain ⟨m', rfl, hrest'⟩ := hd.rests_of_step hrest last
    refine ⟨m', ?_, hrest'⟩
    rw [List.length_append, List.length_singleton]
    omega

/-- All runs that come to rest come to rest in the same state. -/
theorem Diamond.eq_of_stuck (hd : Diamond step) (h : Rests step s n u)
    {trace : List (Step σ ε)} (run : Run step s trace t) (ht : Stuck step t) : t = u := by
  obtain ⟨m, -, hrest⟩ := hd.rests_of_run h run
  cases hrest with
  | stuck _ => rfl
  | step first rest => exact absurd first (ht _ _)

end TransitionRuns

namespace StreamPrograms
open EffectPrograms TransitionRuns

/-- What a program does with the stream between it and the other one. -/
inductive StreamCall (β : Type) where
  | write (items : List β)
  | read (n : ℕ)

/-- A read that fails is `none`. -/
@[reducible] def StreamCall.Reply {β : Type} : StreamCall β → Type
  | .write _ => Unit
  | .read _ => Option (List β)

variable {β α α' δ : Type}

abbrev StreamProgram (β α : Type) := Program (StreamCall β) StreamCall.Reply α

/-- A program with what was written to it and not read yet. -/
structure Party (β α : Type) where
  program : StreamProgram β α
  inbox : List β

/-- The first party makes its next call. -/
inductive Party.Advances (p : Party β α) (q : Party β α') : Party β α → Party β α' → Prop where
  | writes {items : List β} {next : Unit → StreamProgram β α}
      (hcall : p.program = .call (.write items) next) :
      Advances p q { p with program := next () } { q with inbox := q.inbox ++ items }
  | reads {n : ℕ} {next : Option (List β) → StreamProgram β α}
      (hcall : p.program = .call (.read n) next) (hn : n ≤ p.inbox.length) :
      Advances p q ⟨next (some (p.inbox.take n)), p.inbox.drop n⟩ q
  | fails {n : ℕ} {next : Option (List β) → StreamProgram β α} {b : α'}
      (hcall : p.program = .call (.read n) next) (hn : p.inbox.length < n)
      (hover : q.program = .done b) : Advances p q { p with program := next none } q

structure Joined (β α α' : Type) where
  left : Party β α
  right : Party β α'

inductive Side where
  | left
  | right

namespace Joined

inductive Moves (s : Joined β α α') : Side → Joined β α α' → Prop where
  | left {p : Party β α} {q : Party β α'} (h : s.left.Advances s.right p q) :
      Moves s .left ⟨p, q⟩
  | right {p : Party β α} {q : Party β α'} (h : s.right.Advances s.left q p) :
      Moves s .right ⟨p, q⟩

end Joined

namespace Party.Advances

variable {p p₁ p₂ : Party β α} {q q₁ q₂ : Party β α'}

theorem unique (h : p.Advances q p₁ q₁) (h' : p.Advances q p₂ q₂) : p₁ = p₂ ∧ q₁ = q₂ := by
  cases h with
  | writes hcall =>
    cases h' with
    | writes hcall' =>
      cases hcall.symm.trans hcall'
      exact ⟨rfl, rfl⟩
    | _ hcall' => cases hcall.symm.trans hcall'
  | reads hcall hn =>
    cases h' with
    | writes hcall' => cases hcall.symm.trans hcall'
    | reads hcall' hn' =>
      cases hcall.symm.trans hcall'
      exact ⟨rfl, rfl⟩
    | fails hcall' hn' =>
      cases hcall.symm.trans hcall'
      omega
  | fails hcall hn hover =>
    cases h' with
    | writes hcall' => cases hcall.symm.trans hcall'
    | reads hcall' hn' =>
      cases hcall.symm.trans hcall'
      omega
    | fails hcall' hn' hover' =>
      cases hcall.symm.trans hcall'
      exact ⟨rfl, rfl⟩

theorem not_done (h : p.Advances q p₁ q₁) (a : α) : p.program ≠ .done a := by
  intro hdone
  cases h with
  | _ hcall => cases hcall.symm.trans hdone

/-- The moves of the two parties commute. -/
theorem commute (h : p.Advances q p₁ q₁) (h' : q.Advances p q₂ p₂) :
    ∃ p' q', q₁.Advances p₁ q' p' ∧ p₂.Advances q₂ p' q' := by
  cases h with
  | @writes items next hcall =>
    cases h' with
    | writes hcall' => exact ⟨_, _, .writes hcall', .writes hcall⟩
    | @reads n next' hcall' hn =>
      have hreads : Party.Advances { q with inbox := q.inbox ++ items }
          { p with program := next () } _ _ := .reads hcall' (by simp; omega)
      rw [List.take_append_of_le_length hn, List.drop_append_of_le_length hn] at hreads
      exact ⟨_, _, hreads, .writes hcall⟩
    | fails hcall' hn hover => cases hcall.symm.trans hover
  | @reads n next hcall hn =>
    cases h' with
    | @writes items next' hcall' =>
      have hreads : Party.Advances { p with inbox := p.inbox ++ items }
          { q with program := next' () } _ _ := .reads hcall (by simp; omega)
      rw [List.take_append_of_le_length hn, List.drop_append_of_le_length hn] at hreads
      exact ⟨_, _, .writes hcall', hreads⟩
    | reads hcall' hn' => exact ⟨_, _, .reads hcall' hn', .reads hcall hn⟩
    | fails hcall' hn' hover => cases hcall.symm.trans hover
  | fails hcall hn hover => exact absurd hover (h'.not_done _)

end Party.Advances

namespace Joined

variable {s t : Joined β α α'} {n : ℕ}

theorem diamond : Diamond (Moves : Joined β α α' → Side → Joined β α α' → Prop) := by
  intro s e t e' t' h h'
  cases h with
  | left h =>
    cases h' with
    | left h' =>
      obtain ⟨rfl, rfl⟩ := h.unique h'
      exact Or.inl rfl
    | right h' =>
      obtain ⟨p', q', hright, hleft⟩ := h.commute h'
      exact Or.inr ⟨.right, .left, _, .right hright, .left hleft⟩
  | right h =>
    cases h' with
    | left h' =>
      obtain ⟨p', q', hright, hleft⟩ := h'.commute h
      exact Or.inr ⟨.left, .right, _, .left hleft, .right hright⟩
    | right h' =>
      obtain ⟨rfl, rfl⟩ := h.unique h'
      exact Or.inl rfl

theorem stuck_done (a : α) (b : α') (inbox inbox' : List β) :
    Stuck Moves (⟨⟨.done a, inbox⟩, ⟨.done b, inbox'⟩⟩ : Joined β α α') := by
  intro e t h
  cases h with
  | left h => exact h.not_done a rfl
  | right h => exact h.not_done b rfl

/-- The same two parties, seen from the other side. -/
def swap (s : Joined β α α') : Joined β α' α := ⟨s.right, s.left⟩

theorem Moves.swap {e : Side} (h : Moves s e t) : ∃ e', Moves s.swap e' t.swap := by
  cases h with
  | left h => exact ⟨.right, .right h⟩
  | right h => exact ⟨.left, .left h⟩

theorem stuck_swap (h : Stuck Moves s) : Stuck Moves s.swap := by
  intro e t hmove
  obtain ⟨e', hmove'⟩ := hmove.swap
  exact h e' _ hmove'

theorem rests_swap (h : Rests Moves s n t) : Rests Moves s.swap n t.swap := by
  induction h with
  | stuck h => exact .stuck (stuck_swap h)
  | step first rest ih =>
    obtain ⟨e', hfirst⟩ := first.swap
    exact .step hfirst ih

/-- The left program reads what stands at the front of its inbox. -/
theorem rests_read {next : Option (List β) → StreamProgram β α} {items rest : List β}
    {q : Party β α'} (h : Rests Moves ⟨⟨next (some items), rest⟩, q⟩ n t) :
    Rests Moves ⟨⟨.call (.read items.length) next, items ++ rest⟩, q⟩ (n + 1) t := by
  have hreads : Party.Advances (⟨.call (.read items.length) next, items ++ rest⟩ : Party β α) q _ _ :=
    .reads rfl (by simp)
  rw [List.take_left, List.drop_left] at hreads
  exact .step (.left hreads) h

end Joined

/-- The result on a stream that is given as a whole, and what is left of the stream. -/
def feed : StreamProgram β α → List β → α × List β
  | .done a, stream => (a, stream)
  | .call (.write _) next, stream => feed (next ()) stream
  | .call (.read n) next, stream =>
    if n ≤ stream.length then feed (next (some (stream.take n))) (stream.drop n)
    else feed (next none) stream

/-- Every run against a program that is over comes to rest with what `feed` computes. -/
theorem rests_feed (p : StreamProgram β α) (stream : List β) (b : α') (inbox : List β) :
    ∃ n inbox', Rests Joined.Moves ⟨⟨p, stream⟩, ⟨.done b, inbox⟩⟩ n
      ⟨⟨.done (feed p stream).1, (feed p stream).2⟩, ⟨.done b, inbox'⟩⟩ := by
  induction p generalizing stream inbox with
  | done a => exact ⟨0, inbox, .stuck (Joined.stuck_done a b stream inbox)⟩
  | call e next ih =>
    cases e with
    | write items =>
      obtain ⟨n, inbox', h⟩ := ih () stream (inbox ++ items)
      exact ⟨n + 1, inbox', .step (.left (.writes rfl)) h⟩
    | read k =>
      rw [feed]
      split_ifs with hk
      · obtain ⟨n, inbox', h⟩ := ih (some (stream.take k)) (stream.drop k) inbox
        exact ⟨n + 1, inbox', .step (.left (.reads rfl hk)) h⟩
      · obtain ⟨n, inbox', h⟩ := ih none stream inbox
        exact ⟨n + 1, inbox', .step (.left (.fails rfl (by simpa using hk) rfl)) h⟩

end StreamPrograms
