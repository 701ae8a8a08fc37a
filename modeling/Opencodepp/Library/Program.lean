/-!
# Programs with a state and an early exit

The engine's functions read and update one mutable record and leave early with
an error value.  `Program σ ε α` is that shape: a state transformer which either
returns a value or exits, and which keeps the state it had reached in both cases.

Four ways of reasoning about such a program are developed here:

* `wp` is the weakest precondition with one postcondition for returning and one
  for exiting; its equations execute a program symbolically (`wp_bind` and the
  equations of the primitives), and `wp_mono` uses the specification of a callee;
* `Within` says that a program only ever moves along a preorder on states, which
  is how frame conditions are stated and composed;
* `Maintains` says that a program returns in the invariant it was started in, or
  exits in a given way;
* `iterate` is an unbounded loop cut off after a number of rounds, with its
  invariant rule `iterate_invariant` and the rule `iterate_rounds` that counts them.
-/

set_option autoImplicit false

namespace Opencodepp.Library

/-- A state transformer that returns a value or leaves early with an exit. -/
def Program (σ ε α : Type) : Type := σ → Except ε α × σ

namespace Program

variable {σ ε ε' α β : Type}

/-- Sequencing: the second program runs only when the first one returns. -/
def andThen (x : Program σ ε α) (f : α → Program σ ε β) : Program σ ε β := fun s =>
  match x s with
  | (.ok a, s') => f a s'
  | (.error e, s') => (.error e, s')

instance : Monad (Program σ ε) where
  pure a := fun s => (.ok a, s)
  bind := andThen

/-- Leave the program. -/
def stop (e : ε) : Program σ ε α := fun s => (.error e, s)

/-- Leave the program when the guard holds. -/
def stopIf (guard : Bool) (e : ε) : Program σ ε Unit :=
  if guard then stop e else pure ()

/-- Run a program only when the guard holds. -/
def onlyIf (guard : Bool) (x : Program σ ε Unit) : Program σ ε Unit :=
  if guard then x else pure ()

/-- Read something off the state. -/
def gets (f : σ → α) : Program σ ε α := fun s => (.ok (f s), s)

/-- Update the state. -/
def update (f : σ → σ) : Program σ ε Unit := fun s => (.ok (), f s)

/-- Run a program to its end and hand its exit to the caller as a value. -/
def attempt (x : Program σ ε α) : Program σ ε' (Except ε α) := fun s =>
  (.ok (x s).1, (x s).2)

/-- Run the body on every element in turn. -/
def forEach (body : α → Program σ ε Unit) : List α → Program σ ε Unit
  | [] => pure ()
  | a :: rest => do
      body a
      forEach body rest

/-! ## Weakest preconditions -/

/-- What has to hold now for `x` to return in `Q` or exit in `E`. -/
def wp (x : Program σ ε α) (Q : α → σ → Prop) (E : ε → σ → Prop) (s : σ) : Prop :=
  match x s with
  | (.ok a, s') => Q a s'
  | (.error e, s') => E e s'

@[simp] theorem wp_pure (a : α) (Q : α → σ → Prop) (E : ε → σ → Prop) (s : σ) :
    wp (pure a) Q E s ↔ Q a s := Iff.rfl

@[simp] theorem wp_stop (e : ε) (Q : α → σ → Prop) (E : ε → σ → Prop) (s : σ) :
    wp (stop e) Q E s ↔ E e s := Iff.rfl

@[simp] theorem wp_gets (f : σ → α) (Q : α → σ → Prop) (E : ε → σ → Prop) (s : σ) :
    wp (gets f) Q E s ↔ Q (f s) s := Iff.rfl

@[simp] theorem wp_update (f : σ → σ) (Q : Unit → σ → Prop) (E : ε → σ → Prop) (s : σ) :
    wp (update f) Q E s ↔ Q () (f s) := Iff.rfl

@[simp] theorem wp_bind (x : Program σ ε α) (f : α → Program σ ε β)
    (Q : β → σ → Prop) (E : ε → σ → Prop) (s : σ) :
    wp (x >>= f) Q E s ↔ wp x (fun a => wp (f a) Q E) E s := by
  show wp (andThen x f) Q E s ↔ _
  unfold wp andThen
  rcases x s with ⟨_ | _, _⟩ <;> exact Iff.rfl

@[simp] theorem wp_stopIf (guard : Bool) (e : ε) (Q : Unit → σ → Prop) (E : ε → σ → Prop)
    (s : σ) :
    wp (stopIf guard e) Q E s ↔ (guard = true → E e s) ∧ (guard = false → Q () s) := by
  cases guard <;> simp [stopIf]

@[simp] theorem wp_onlyIf (guard : Bool) (x : Program σ ε Unit) (Q : Unit → σ → Prop)
    (E : ε → σ → Prop) (s : σ) :
    wp (onlyIf guard x) Q E s ↔ (guard = true → wp x Q E s) ∧ (guard = false → Q () s) := by
  cases guard <;> simp [onlyIf]

theorem wp_attempt (x : Program σ ε α) (Q : Except ε α → σ → Prop) (E : ε' → σ → Prop)
    (s : σ) :
    wp (attempt x) Q E s ↔ wp x (fun a => Q (.ok a)) (fun e => Q (.error e)) s := by
  unfold attempt wp
  rcases run : x s with ⟨_ | _, _⟩ <;> simp only [run]

theorem wp_ite (c : Prop) [Decidable c] (x y : Program σ ε α) (Q : α → σ → Prop)
    (E : ε → σ → Prop) (s : σ) :
    wp (if c then x else y) Q E s ↔ (c → wp x Q E s) ∧ (¬c → wp y Q E s) := by
  by_cases holds : c <;> simp [holds]

/-- A specification of `x` may be used wherever its postconditions suffice. -/
theorem wp_mono {x : Program σ ε α} {Q Q' : α → σ → Prop} {E E' : ε → σ → Prop} {s : σ}
    (spec : wp x Q E s) (returns : ∀ a s', Q a s' → Q' a s')
    (exits : ∀ e s', E e s' → E' e s') : wp x Q' E' s := by
  unfold wp at spec ⊢
  rcases run : x s with ⟨_ | _, _⟩ <;> rw [run] at spec
  · exact exits _ _ spec
  · exact returns _ _ spec

/-- Two specifications of one program hold together. -/
theorem wp_and {x : Program σ ε α} {Q Q' : α → σ → Prop} {E E' : ε → σ → Prop} {s : σ}
    (first : wp x Q E s) (second : wp x Q' E' s) :
    wp x (fun a s' => Q a s' ∧ Q' a s') (fun e s' => E e s' ∧ E' e s') s := by
  unfold wp at first second ⊢
  rcases run : x s with ⟨_ | _, _⟩ <;> rw [run] at first second
  · exact ⟨first, second⟩
  · exact ⟨first, second⟩

theorem wp_of_returns {x : Program σ ε α} {Q : α → σ → Prop} {E : ε → σ → Prop} {s s' : σ}
    {a : α} (spec : wp x Q E s) (run : x s = (.ok a, s')) : Q a s' := by
  unfold wp at spec
  rwa [run] at spec

theorem wp_of_exits {x : Program σ ε α} {Q : α → σ → Prop} {E : ε → σ → Prop} {s s' : σ}
    {e : ε} (spec : wp x Q E s) (run : x s = (.error e, s')) : E e s' := by
  unfold wp at spec
  rwa [run] at spec

theorem bind_of_returns {x : Program σ ε α} {f : α → Program σ ε β} {a : α} {s s' : σ}
    (returns : x s = (.ok a, s')) : (x >>= f) s = f a s' := by
  show andThen x f s = f a s'
  unfold andThen
  rw [returns]

/-- Renaming the result of a program changes nothing in the state. -/
theorem state_bind_pure (x : Program σ ε α) (g : α → β) (s : σ) :
    ((x >>= fun a => pure (g a)) s).2 = (x s).2 := by
  show (andThen x _ s).2 = (x s).2
  unfold andThen
  rcases x s with ⟨_ | _, _⟩ <;> rfl

/-- The invariant rule for a pass over a list: `I rest` holds before the elements
`rest` are visited. -/
theorem wp_forEach {body : α → Program σ ε Unit} {I : List α → σ → Prop} {E : ε → σ → Prop}
    (step : ∀ a rest s, I (a :: rest) s → wp (body a) (fun _ => I rest) E s) :
    ∀ (items : List α) (s : σ), I items s → wp (forEach body items) (fun _ => I []) E s := by
  intro items
  induction items with
  | nil =>
      intro s start
      exact start
  | cons a rest inductionHypothesis =>
      intro s start
      unfold forEach
      rw [wp_bind]
      exact wp_mono (step a rest s start)
        (fun _ s' held => inductionHypothesis s' held) (fun _ _ exited => exited)

/-! ## Moving along a preorder -/

/-- A relation that a sequence of steps may be folded into. -/
structure Framing (R : σ → σ → Prop) : Prop where
  refl : ∀ s, R s s
  trans : ∀ {s s' s''}, R s s' → R s' s'' → R s s''

/-- Every run of `x`, returning or exiting, relates its first and last state. -/
def Within (R : σ → σ → Prop) (x : Program σ ε α) : Prop := ∀ s, R s (x s).2

theorem Within.wp {R : σ → σ → Prop} {x : Program σ ε α} (within : Within R x) (s : σ) :
    wp x (fun _ s' => R s s') (fun _ s' => R s s') s := by
  have moved := within s
  unfold Program.wp
  rcases run : x s with ⟨_ | _, _⟩ <;> rw [run] at moved <;> exact moved

/-- A relation that is specified for returns and exits alike. -/
theorem Within.of_wp {R : σ → σ → Prop} {x : Program σ ε α}
    (spec : ∀ s, Program.wp x (fun _ s' => R s s') (fun _ s' => R s s') s) : Within R x := by
  intro s
  have post := spec s
  unfold Program.wp at post
  rcases run : x s with ⟨_ | _, s'⟩ <;> rw [run] at post <;> exact post

section Within

variable {R : σ → σ → Prop} (framing : Framing R)
include framing

theorem Within.pure (a : α) : Within R (Pure.pure a : Program σ ε α) :=
  fun s => framing.refl s

theorem Within.stop (e : ε) : Within R (Program.stop e : Program σ ε α) :=
  fun s => framing.refl s

theorem Within.gets (f : σ → α) : Within R (Program.gets f : Program σ ε α) :=
  fun s => framing.refl s

theorem Within.stopIf (guard : Bool) (e : ε) : Within R (Program.stopIf guard e) := by
  cases guard
  · exact Within.pure framing ()
  · exact Within.stop framing e

theorem Within.onlyIf {guard : Bool} {x : Program σ ε Unit} (within : Within R x) :
    Within R (Program.onlyIf guard x) := by
  cases guard
  · exact Within.pure framing ()
  · exact within

theorem Within.bind {x : Program σ ε α} {f : α → Program σ ε β}
    (first : Within R x) (second : ∀ a, Within R (f a)) : Within R (x >>= f) := by
  intro s
  have moved := first s
  show R s (andThen x f s).2
  unfold andThen
  rcases run : x s with ⟨e | a, s'⟩ <;> rw [run] at moved
  · exact moved
  · exact framing.trans moved (second a s')

theorem Within.forEach {body : α → Program σ ε Unit} (each : ∀ a, Within R (body a)) :
    ∀ items : List α, Within R (Program.forEach body items) := by
  intro items
  induction items with
  | nil => exact Within.pure framing ()
  | cons a rest inductionHypothesis =>
      exact Within.bind framing (each a) (fun _ => inductionHypothesis)

end Within

theorem Within.attempt {R : σ → σ → Prop} {x : Program σ ε α} (within : Within R x) :
    Within R (Program.attempt x : Program σ ε' (Except ε α)) := within

theorem Within.ite {R : σ → σ → Prop} {c : Prop} [Decidable c] {x y : Program σ ε α}
    (left : Within R x) (right : Within R y) : Within R (if c then x else y) := by
  by_cases holds : c
  · rw [if_pos holds]
    exact left
  · rw [if_neg holds]
    exact right

/-! ## Keeping an invariant -/

/-- From a state in `I`, the program returns in `I` or exits in `E`. -/
def Maintains (I : σ → Prop) (E : ε → σ → Prop) (x : Program σ ε α) : Prop :=
  ∀ s, I s → wp x (fun _ => I) E s

namespace Maintains

variable {I : σ → Prop} {E : ε → σ → Prop}

theorem pure (a : α) : Maintains I E (Pure.pure a : Program σ ε α) := fun _ start => start

theorem gets (f : σ → α) : Maintains I E (Program.gets f : Program σ ε α) :=
  fun _ start => start

theorem stop {e : ε} (exits : ∀ s, I s → E e s) :
    Maintains I E (Program.stop e : Program σ ε α) := exits

theorem stopIf {guard : Bool} {e : ε} (exits : ∀ s, I s → E e s) :
    Maintains I E (Program.stopIf guard e) := by
  cases guard
  · exact pure ()
  · exact stop exits

theorem bind {x : Program σ ε α} {f : α → Program σ ε β} (first : Maintains I E x)
    (second : ∀ a, Maintains I E (f a)) : Maintains I E (x >>= f) := by
  intro s start
  rw [wp_bind]
  exact wp_mono (first s start) (fun a s' held => second a s' held) (fun _ _ exited => exited)

theorem forEach {body : α → Program σ ε Unit} (each : ∀ a, Maintains I E (body a))
    (items : List α) : Maintains I E (Program.forEach body items) :=
  fun s start => wp_forEach (fun a _ s' held => each a s' held) items s start

end Maintains

/-! ## Loops -/

/-- Repeat the body until it exits, for at most `fuel` rounds.  `none` says that
the loop was still going when the rounds were used up. -/
def iterate (body : Program σ ε Unit) : Nat → σ → Option ε × σ
  | 0, s => (none, s)
  | fuel + 1, s =>
      match body s with
      | (.ok _, s') => iterate body fuel s'
      | (.error e, s') => (some e, s')

/-- The invariant rule: an invariant of the body holds whenever the loop is cut
off, and the loop exits as the body does. -/
theorem iterate_invariant {body : Program σ ε Unit} {I : σ → Prop} {E : ε → σ → Prop}
    (step : ∀ s, I s → wp body (fun _ => I) E s) :
    ∀ (fuel : Nat) (s : σ), I s →
      ((iterate body fuel s).1 = none → I (iterate body fuel s).2) ∧
      (∀ e, (iterate body fuel s).1 = some e → E e (iterate body fuel s).2) := by
  intro fuel
  induction fuel with
  | zero =>
      intro s start
      exact ⟨fun _ => start, fun e impossible => by simp [iterate] at impossible⟩
  | succ fuel inductionHypothesis =>
      intro s start
      have round := step s start
      unfold wp at round
      unfold iterate
      rcases run : body s with ⟨e | _, s'⟩ <;> rw [run] at round
      · exact ⟨fun impossible => by simp at impossible,
          fun e' exited => by cases exited; exact round⟩
      · exact inductionHypothesis s' round

/-- A loop that is still going has made every round it was given. -/
theorem iterate_rounds {body : Program σ ε Unit} {I : σ → Prop} {n : σ → Nat}
    (step : ∀ s, I s → wp body (fun _ s' => I s' ∧ n s' = n s + 1) (fun _ _ => True) s) :
    ∀ (fuel : Nat) (s : σ), I s → (iterate body fuel s).1 = none →
      n (iterate body fuel s).2 = n s + fuel := by
  intro fuel
  induction fuel with
  | zero =>
      intro s _ _
      rfl
  | succ fuel inductionHypothesis =>
      intro s start going
      have round := step s start
      unfold wp at round
      unfold iterate at going ⊢
      rcases run : body s with ⟨e | _, s'⟩ <;> rw [run] at round <;> rw [run] at going
      · cases going
      · obtain ⟨held, counted⟩ := round
        have rest := inductionHypothesis s' held going
        dsimp only
        omega

end Program

/-!
## The outcome of a program that may be interrupted

`Runs view safe quit x s r w` says what `x` does from `s` in one line: it ends with the
result `r` in a state that looks like `w`, unless it is interrupted, in which case it exits
with `quit`; and it is never interrupted from a state that is safe, nor does it leave the
safe states.

The rules follow a program step by step, so that the result of a whole program is computed
from the results of its parts, both for the runs that are left alone and for those that are
cut short.
-/

namespace Program

variable {σ ε α β ω ω' : Type}

/-- The program ends with this result and this view, or is interrupted. -/
def Runs (view : σ → ω) (safe : σ → Prop) (quit : ε) (x : Program σ ε α) (s : σ)
    (r : Except ε α) (w : ω) : Prop :=
  (x s).1 = r ∧ view (x s).2 = w ∧ (safe s → safe (x s).2) ∨ (x s).1 = .error quit ∧ ¬safe s

namespace Runs

variable {view : σ → ω} {safe : σ → Prop} {quit : ε} {x : Program σ ε α} {s : σ}
  {r : Except ε α} {w : ω}

/-- From a safe state nothing interrupts the program. -/
theorem result_of_safe (runs : Runs view safe quit x s r w) (start : safe s) :
    (x s).1 = r ∧ view (x s).2 = w := by
  rcases runs with ⟨result, seen, -⟩ | ⟨-, exposed⟩
  · exact ⟨result, seen⟩
  · exact absurd start exposed

/-- A program that returns was not interrupted. -/
theorem result_of_returns {a : α} (runs : Runs view safe quit x s r w)
    (returns : (x s).1 = .ok a) : (x s).1 = r ∧ view (x s).2 = w := by
  rcases runs with ⟨result, seen, -⟩ | ⟨quits, -⟩
  · exact ⟨result, seen⟩
  · rw [returns] at quits
    cases quits

/-- A program whose result is the interruption quits either way. -/
theorem quits (runs : Runs view safe quit x s (.error quit) w) : (x s).1 = .error quit := by
  rcases runs with ⟨result, -, -⟩ | ⟨result, -⟩
  · exact result
  · exact result

theorem pure (a : α) : Runs view safe quit (Pure.pure a) s (.ok a) (view s) :=
  .inl ⟨rfl, rfl, fun start => start⟩

theorem stop (e : ε) : Runs view safe quit (Program.stop e : Program σ ε α) s (.error e) (view s) :=
  .inl ⟨rfl, rfl, fun start => start⟩

theorem update {f : σ → σ} (kept : safe s → safe (f s)) :
    Runs view safe quit (Program.update f) s (.ok ()) (view (f s)) :=
  .inl ⟨rfl, rfl, kept⟩

theorem andThen_ok {x : Program σ ε α} {f : α → Program σ ε β} {a : α} {s' : σ}
    (run : x s = (.ok a, s')) : (x >>= f) s = f a s' := by
  show andThen x f s = _
  unfold andThen
  rw [run]

theorem andThen_error {x : Program σ ε α} {f : α → Program σ ε β} {e : ε} {s' : σ}
    (run : x s = (.error e, s')) : (x >>= f) s = (.error e, s') := by
  show andThen x f s = _
  unfold andThen
  rw [run]

/-- A step that returns is followed by the rest. -/
theorem bind {f : α → Program σ ε β} {a : α} {r : Except ε β} {w' : ω}
    (first : Runs view safe quit x s (.ok a) w)
    (second : ∀ s', view s' = w → Runs view safe quit (f a) s' r w') :
    Runs view safe quit (x >>= f) s r w' := by
  rcases run : x s with ⟨result, s'⟩
  unfold Runs at first ⊢
  rw [run] at first
  rcases first with ⟨rfl, seen, kept⟩ | ⟨rfl, exposed⟩
  · rw [andThen_ok run]
    rcases second s' seen with ⟨result, seen', kept'⟩ | ⟨quits, exposed⟩
    · exact .inl ⟨result, seen', fun start => kept' (kept start)⟩
    · exact .inr ⟨quits, fun start => exposed (kept start)⟩
  · rw [andThen_error run]
    exact .inr ⟨rfl, exposed⟩

/-- A step that exits ends the program. -/
theorem bind_error {f : α → Program σ ε β} {e : ε}
    (first : Runs view safe quit x s (.error e) w) :
    Runs view safe quit (x >>= f) s (.error e) w := by
  rcases run : x s with ⟨result, s'⟩
  unfold Runs at first ⊢
  rw [run] at first
  rcases first with ⟨rfl, seen, kept⟩ | ⟨rfl, exposed⟩
  · rw [andThen_error run]
    exact .inl ⟨rfl, seen, kept⟩
  · rw [andThen_error run]
    exact .inr ⟨rfl, exposed⟩

theorem andThen_gets {f : σ → α} {g : α → Program σ ε β} :
    (Program.gets f >>= g) s = g (f s) s := rfl

/-- A value read off the state is handed on. -/
theorem gets_bind {f : σ → α} {g : α → Program σ ε β} {r : Except ε β} {w : ω}
    (rest : Runs view safe quit (g (f s)) s r w) :
    Runs view safe quit (Program.gets f >>= g) s r w := rest

/-- An exit that is caught is handed on as a value; a handler that lets the interruption
through is interrupted by it. -/
theorem attempt_bind {f : Except ε α → Program σ ε β} {r' : Except ε β} {w' : ω}
    (first : Runs view safe quit x s r w)
    (second : ∀ s', view s' = w → Runs view safe quit (f r) s' r' w')
    (passes : ∀ s', (f (.error quit) s').1 = .error quit) :
    Runs view safe quit (Program.attempt x >>= f) s r' w' := by
  have handled : (Program.attempt x >>= f) s = f (x s).1 (x s).2 := rfl
  unfold Runs
  rw [handled]
  rcases first with ⟨rfl, seen, kept⟩ | ⟨quits, exposed⟩
  · rcases second _ seen with ⟨result, seen', kept'⟩ | ⟨quits, exposed⟩
    · exact .inl ⟨result, seen', fun start => kept' (kept start)⟩
    · exact .inr ⟨quits, fun start => exposed (kept start)⟩
  · rw [quits]
    exact .inr ⟨passes _, exposed⟩

/-- A coarser view. -/
theorem seen_through (g : ω → ω') (runs : Runs view safe quit x s r w) :
    Runs (g ∘ view) safe quit x s r (g w) := by
  rcases runs with ⟨result, seen, kept⟩ | quits
  · exact .inl ⟨result, congrArg g seen, kept⟩
  · exact .inr quits

end Runs

end Program

end Opencodepp.Library
