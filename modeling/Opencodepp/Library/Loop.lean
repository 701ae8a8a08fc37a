import Mathlib.Logic.Relation

/-!
# Loops

A loop repeats a step until the step ends it with a result.  `Loop` carries the reason why it
ends: a pair of numbers that every further round makes smaller.  A property that the last round
gives the result and that every round hands back holds of the result (`run_backward`), and what
every round hands on holds until the last one (`run_forward`), where a condition on the states
that are reached may be used.
-/

set_option autoImplicit false

namespace Opencodepp.Library

/-- A step with the numbers that show that its repetition ends. -/
structure Loop (σ ρ : Type) where
  step : σ → Except ρ σ
  size : σ → Nat × Nat
  shrinks : ∀ {s next : σ}, step s = .ok next → Prod.Lex (· < ·) (· < ·) (size next) (size s)

namespace Loop

variable {σ ρ : Type} (loop : Loop σ ρ)

/-- Repeat the step until it ends. -/
def run (s : σ) : ρ :=
  match _stepped : loop.step s with
  | .error result => result
  | .ok next => run next
  termination_by loop.size s
  decreasing_by exact loop.shrinks _stepped

/-- One state is reached from another by rounds. -/
def Reaches : σ → σ → Prop := Relation.ReflTransGen fun s next => loop.step s = .ok next

variable {loop}

theorem run_of_error {s : σ} {result : ρ} (ended : loop.step s = .error result) :
    loop.run s = result := by
  rw [run]
  split
  · next other => exact Except.error.inj (other.symm.trans ended)
  · next other => exact nomatch other.symm.trans ended

theorem run_of_ok {s next : σ} (stepped : loop.step s = .ok next) :
    loop.run s = loop.run next := by
  rw [run]
  split
  · next other => exact nomatch other.symm.trans stepped
  · next other => rw [Except.ok.inj (other.symm.trans stepped)]

theorem Reaches.refl (s : σ) : loop.Reaches s s := Relation.ReflTransGen.refl

theorem Reaches.step {s next : σ} (stepped : loop.step s = .ok next) : loop.Reaches s next :=
  Relation.ReflTransGen.single stepped

theorem Reaches.head {s next last : σ} (stepped : loop.step s = .ok next)
    (later : loop.Reaches next last) : loop.Reaches s last :=
  Relation.ReflTransGen.head stepped later

/-- What the result of the last round gives, and every round hands back, the result gives. -/
theorem run_backward (property : σ → Prop) (accepted : ρ → Prop)
    (last : ∀ s result, loop.step s = .error result → accepted result → property s)
    (round : ∀ s next, loop.step s = .ok next → property next → property s) {s : σ}
    (accepts : accepted (loop.run s)) : property s := by
  induction s using run.induct loop with
  | case1 s result ended =>
      rw [run_of_error ended] at accepts
      exact last s result ended accepts
  | case2 s next stepped inductionHypothesis =>
      rw [run_of_ok stepped] at accepts
      exact round s next stepped (inductionHypothesis accepts)

/-- What every round from a state that fulfils the condition hands on, the last one uses. -/
theorem run_forward (condition property : σ → Prop) (accepted : ρ → Prop)
    (last : ∀ s result, loop.step s = .error result → property s → accepted result)
    (round : ∀ s next, loop.step s = .ok next → condition s → property s → property next) {s : σ}
    (met : ∀ reached, loop.Reaches s reached → condition reached) (holds : property s) :
    accepted (loop.run s) := by
  induction s using run.induct loop with
  | case1 s result ended =>
      rw [run_of_error ended]
      exact last s result ended holds
  | case2 s next stepped inductionHypothesis =>
      rw [run_of_ok stepped]
      exact inductionHypothesis (fun reached later => met reached (Reaches.head stepped later))
        (round s next stepped (met s (Reaches.refl s)) holds)

/-- What every round hands on holds wherever rounds lead. -/
theorem reaches_invariant (invariant : σ → Prop)
    (round : ∀ s next, loop.step s = .ok next → invariant s → invariant next) {s reached : σ}
    (path : loop.Reaches s reached) (holds : invariant s) : invariant reached := by
  induction path with
  | refl => exact holds
  | tail _ stepped inductionHypothesis => exact round _ _ stepped inductionHypothesis

end Loop

end Opencodepp.Library
