import Mathlib.Data.List.Basic

/-!
# Runs of a step function

A system whose steps are actions: `step` gives the state after an action, or nothing when the
action cannot happen.  `Meets` says that along a run every action fulfils a condition in the
state it happens in, and `Always` that every state of the run is good.  What steps under a
condition preserve holds wherever a run under it leads (`run_invariant`); where each other step
spoils the next state, the runs under the condition are the good ones (`always_iff_meets`).
-/

set_option autoImplicit false

namespace Opencodepp.Library

namespace Transition

variable {σ α : Type} (step : σ → α → Option σ)

/-- The state after actions one after the other. -/
def run : σ → List α → Option σ
  | s, [] => some s
  | s, a :: rest => (step s a).bind fun next => run next rest

/-- Every action fulfils the condition in the state it happens in. -/
def Meets (condition : σ → α → Prop) : σ → List α → Prop
  | _, [] => True
  | s, a :: rest => condition s a ∧ ∀ next ∈ step s a, Meets condition next rest

instance decidableMeets (condition : σ → α → Prop) [∀ s a, Decidable (condition s a)] :
    ∀ (s : σ) (actions : List α), Decidable (Meets step condition s actions)
  | _, [] => isTrue trivial
  | s, a :: rest =>
      have _later : DecidablePred fun next => Meets step condition next rest := fun next =>
        decidableMeets condition next rest
      inferInstanceAs
        (Decidable (condition s a ∧ ∀ next ∈ step s a, Meets step condition next rest))

/-- Every state of the run is good, the first one and the last one included. -/
def Always (good : σ → Prop) : σ → List α → Prop
  | s, [] => good s
  | s, a :: rest => good s ∧ ∀ next ∈ step s a, Always good next rest

variable {step}

/-- What every step under the condition preserves holds after every run under it. -/
theorem run_invariant {condition : σ → α → Prop} {invariant : σ → Prop}
    (preserved : ∀ {s a next}, invariant s → condition s a → step s a = some next →
      invariant next) :
    ∀ {actions : List α} {s reached : σ}, invariant s → Meets step condition s actions →
      run step s actions = some reached → invariant reached := by
  intro actions
  induction actions with
  | nil =>
      intro s reached holds _ ran
      cases ran
      exact holds
  | cons a rest inductionHypothesis =>
      intro s reached holds meets ran
      rw [run, Option.bind_eq_some_iff] at ran
      obtain ⟨next, stepped, later⟩ := ran
      exact inductionHypothesis (preserved holds meets.1 stepped) (meets.2 next stepped) later

/-- A run under the condition with one more step. -/
theorem meets_concat {condition : σ → α → Prop} {last : α} : ∀ {actions : List α} {s : σ},
    Meets step condition s (actions ++ [last]) ↔ Meets step condition s actions ∧
      ∀ reached, run step s actions = some reached → condition reached last := by
  intro actions
  induction actions with
  | nil =>
      intro s
      constructor
      · rintro ⟨met, -⟩
        refine ⟨trivial, fun reached ran => ?_⟩
        cases ran
        exact met
      · rintro ⟨-, met⟩
        exact ⟨met s rfl, fun _ _ => trivial⟩
  | cons a rest inductionHypothesis =>
      intro s
      constructor
      · rintro ⟨met, later⟩
        refine ⟨⟨met, fun next stepped => (inductionHypothesis.mp (later next stepped)).1⟩, ?_⟩
        intro reached ran
        rw [run, Option.bind_eq_some_iff] at ran
        obtain ⟨next, stepped, ran⟩ := ran
        exact (inductionHypothesis.mp (later next stepped)).2 reached ran
      · rintro ⟨⟨met, later⟩, last⟩
        refine ⟨met, fun next stepped => inductionHypothesis.mpr ⟨later next stepped, ?_⟩⟩
        exact fun reached ran => last reached (by rw [run, stepped]; exact ran)

/-- A run that is seen to end in a state of some kind. -/
theorem exists_run_of_any {kind : σ → Bool} {actions : List α} {s : σ}
    (seen : (run step s actions).any kind = true) :
    ∃ reached, run step s actions = some reached ∧ kind reached = true :=
  (Option.any_eq_true kind _).mp seen

theorem meets_of_forall {condition : σ → α → Prop} (all : ∀ s a, condition s a) :
    ∀ (actions : List α) (s : σ), Meets step condition s actions := by
  intro actions
  induction actions with
  | nil => exact fun _ => trivial
  | cons a rest inductionHypothesis =>
      exact fun s => ⟨all s a, fun next _ => inductionHypothesis next⟩

/-- What every step preserves holds after every run. -/
theorem run_always {invariant : σ → Prop}
    (preserved : ∀ {s a next}, invariant s → step s a = some next → invariant next)
    {actions : List α} {s reached : σ} (holds : invariant s)
    (ran : run step s actions = some reached) : invariant reached :=
  have anyStep : Meets step (fun _ _ => True) s actions :=
    meets_of_forall (fun _ _ => trivial) actions s
  run_invariant (fun before _ stepped => preserved before stepped) holds anyStep ran

/-- Where a step outside of the condition spoils the state for good, a run that does not stay
under the condition ends spoilt. -/
theorem spoilt_of_not_meets {condition : σ → α → Prop} {invariant spoilt : σ → Prop}
    (preserved : ∀ {s a next}, invariant s → condition s a → step s a = some next →
      invariant next)
    (spoils : ∀ {s a next}, invariant s → ¬ condition s a → step s a = some next → spoilt next)
    (stays : ∀ {s a next}, spoilt s → step s a = some next → spoilt next) :
    ∀ {actions : List α} {s reached : σ}, invariant s → run step s actions = some reached →
      ¬ Meets step condition s actions → spoilt reached := by
  intro actions
  induction actions with
  | nil => exact fun _ _ unmet => absurd trivial unmet
  | cons a rest inductionHypothesis =>
      intro s reached holds ran unmet
      rw [run, Option.bind_eq_some_iff] at ran
      obtain ⟨next, stepped, later⟩ := ran
      by_cases met : condition s a
      · refine inductionHypothesis (preserved holds met stepped) later fun meets => unmet ⟨met, ?_⟩
        intro other same
        cases stepped.symm.trans same
        exact meets
      · exact run_always stays (spoils holds met stepped) later

theorem Always.start {good : σ → Prop} : ∀ {actions : List α} {s : σ},
    Always step good s actions → good s
  | [], _, always => always
  | _ :: _, _, always => always.1

theorem Always.reached {good : σ → Prop} : ∀ {actions : List α} {s reached : σ},
    Always step good s actions → run step s actions = some reached → good reached := by
  intro actions
  induction actions with
  | nil =>
      intro s reached always ran
      cases ran
      exact always
  | cons a rest inductionHypothesis =>
      intro s reached always ran
      rw [run, Option.bind_eq_some_iff] at ran
      obtain ⟨next, stepped, later⟩ := ran
      exact inductionHypothesis (always.2 next stepped) later

/-- Where steps under the condition keep an invariant of good states, and any other step leads
out of the good states, the runs under the condition are those that stay good. -/
theorem always_iff_meets {condition : σ → α → Prop} {good invariant : σ → Prop}
    (implied : ∀ {s}, invariant s → good s)
    (preserved : ∀ {s a next}, invariant s → condition s a → step s a = some next →
      invariant next)
    (needed : ∀ {s a}, invariant s → ¬ condition s a → ∃ next, step s a = some next ∧ ¬ good next) :
    ∀ {actions : List α} {s : σ}, invariant s →
      (Always step good s actions ↔ Meets step condition s actions) := by
  intro actions
  induction actions with
  | nil => exact fun holds => ⟨fun _ => trivial, fun _ => implied holds⟩
  | cons a rest inductionHypothesis =>
      intro s holds
      constructor
      · rintro ⟨-, later⟩
        have met : condition s a := by
          by_contra unmet
          obtain ⟨next, stepped, spoilt⟩ := needed holds unmet
          exact spoilt (later next stepped).start
        refine ⟨met, fun next stepped => ?_⟩
        exact (inductionHypothesis (preserved holds met stepped)).mp (later next stepped)
      · rintro ⟨met, later⟩
        refine ⟨implied holds, fun next stepped => ?_⟩
        exact (inductionHypothesis (preserved holds met stepped)).mpr (later next stepped)

end Transition

end Opencodepp.Library

/-!
## Machines with output

A machine takes one input at a time, changes its state and puts something out.  `feed` is what
it does with a sequence of inputs: the state it ends in, and all its output in order.
-/

namespace Opencodepp.Library.Machine

variable {σ α ε : Type} (step : σ → α → σ × List ε)

/-- The inputs one after the other. -/
def feed (s : σ) : List α → σ × List ε
  | [] => (s, [])
  | a :: rest =>
      let after := feed (step s a).1 rest
      (after.1, (step s a).2 ++ after.2)

@[simp] theorem feed_nil (s : σ) : feed step s [] = (s, []) := rfl

theorem feed_cons (s : σ) (a : α) (rest : List α) :
    feed step s (a :: rest) =
      ((feed step (step s a).1 rest).1, (step s a).2 ++ (feed step (step s a).1 rest).2) := rfl

/-- What follows is fed to the state reached. -/
theorem feed_append (first second : List α) : ∀ s : σ,
    feed step s (first ++ second) =
      ((feed step (feed step s first).1 second).1,
        (feed step s first).2 ++ (feed step (feed step s first).1 second).2) := by
  induction first with
  | nil =>
      intro s
      rfl
  | cons a rest inductionHypothesis =>
      intro s
      rw [List.cons_append, feed_cons, inductionHypothesis, feed_cons, List.append_assoc]

/-- An input in the middle is met in the state its past leads to. -/
theorem mem_output (s : σ) (before : List α) (a : α) (after : List α) {e : ε}
    (emitted : e ∈ (step (feed step s before).1 a).2) :
    e ∈ (feed step s (before ++ a :: after)).2 := by
  rw [feed_append, feed_cons]
  exact List.mem_append_right _ (List.mem_append_left _ emitted)

end Opencodepp.Library.Machine
