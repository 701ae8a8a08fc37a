import Mathlib.Logic.Relation

/-!
# Readers of a growing buffer

A reader looks at the bytes it has: it asks for more, or it takes some of them and goes on in
another state, or it stops.  A reader is steady when more bytes would not have changed what it
did.  Reading as far as possible, and on when more bytes have come, is then the same as reading
all of them at once (`read_append`).
-/

set_option autoImplicit false

namespace Opencodepp.Library.Incremental

inductive Progress (α σ ρ : Type)
  | more
  | next (s : σ) (rest : List α)
  | halt (r : ρ)

/-- A step with another state and another end. -/
def Progress.map {α σ ρ : Type} (f : σ → σ) (g : ρ → ρ) : Progress α σ ρ → Progress α σ ρ
  | .more => .more
  | .next s rest => .next (f s) rest
  | .halt r => .halt (g r)

variable {α σ ρ : Type} (step : σ → List α → Progress α σ ρ)

/-- More bytes do not change a step, and every step takes something. -/
structure Steady : Prop where
  next : ∀ {s after : σ} {buffer rest : List α}, step s buffer = .next after rest →
    ∀ later, step s (buffer ++ later) = .next after (rest ++ later)
  halt : ∀ {s : σ} {r : ρ} {buffer : List α}, step s buffer = .halt r →
    ∀ later, step s (buffer ++ later) = .halt r
  shrinks : ∀ {s after : σ} {buffer rest : List α}, step s buffer = .next after rest →
    rest.length < buffer.length

/-- At most so many steps. -/
def drain : Nat → σ → List α → Except ρ (σ × List α)
  | 0, s, buffer => .ok (s, buffer)
  | fuel + 1, s, buffer =>
      match step s buffer with
      | .more => .ok (s, buffer)
      | .next after rest => drain fuel after rest
      | .halt r => .error r

/-- Read as far as possible: the state, with the bytes that are left, or what the reader stopped
with. -/
def read (s : σ) (buffer : List α) : Except ρ (σ × List α) :=
  drain step (buffer.length + 1) s buffer

/-- The states and buffers that steps lead to. -/
def Leads : σ × List α → σ × List α → Prop :=
  Relation.ReflTransGen fun now later => step now.1 now.2 = .next later.1 later.2

variable {step}

theorem Leads.further {now : σ × List α} {s after : σ} {buffer rest : List α}
    (leads : Leads step now (s, buffer)) (taken : step s buffer = .next after rest) :
    Leads step now (after, rest) :=
  Relation.ReflTransGen.tail leads taken

variable (steady : Steady step)

section Equations

variable {s after : σ} {buffer rest : List α} {r : ρ}

theorem read_of_more (waits : step s buffer = .more) : read step s buffer = .ok (s, buffer) := by
  unfold read drain
  rw [waits]

theorem read_of_halt (halts : step s buffer = .halt r) : read step s buffer = .error r := by
  unfold read drain
  rw [halts]

end Equations

/-- What every step keeps apart, reading keeps apart. -/
theorem read_map {f : σ → σ} {g : ρ → ρ}
    (commutes : ∀ s buffer, step (f s) buffer = (step s buffer).map f g) (s : σ)
    (buffer : List α) :
    read step (f s) buffer =
      ((read step s buffer).map fun out => (f out.1, out.2)).mapError g := by
  have drained (fuel : Nat) : ∀ (s : σ) (buffer : List α), drain step fuel (f s) buffer =
      ((drain step fuel s buffer).map fun out => (f out.1, out.2)).mapError g := by
    induction fuel with
    | zero => exact fun _ _ => rfl
    | succ fuel inductionHypothesis =>
        intro s buffer
        unfold drain
        rw [commutes]
        cases step s buffer with
        | more => rfl
        | next after rest => exact inductionHypothesis after rest
        | halt r => rfl
  exact drained _ s buffer

include steady

/-- Fuel beyond the length of the buffer does not matter. -/
theorem drain_eq_drain : ∀ (first second : Nat) (s : σ) (buffer : List α),
    buffer.length < first → buffer.length < second →
      drain step first s buffer = drain step second s buffer := by
  intro first
  induction first with
  | zero => exact fun _ _ _ enough => absurd enough (Nat.not_lt_zero _)
  | succ first inductionHypothesis =>
      intro second s buffer enough alsoEnough
      cases second with
      | zero => exact absurd alsoEnough (Nat.not_lt_zero _)
      | succ second =>
          unfold drain
          cases taken : step s buffer with
          | more => rfl
          | halt r => rfl
          | next after rest =>
              have shorter := steady.shrinks taken
              exact inductionHypothesis second after rest (by omega) (by omega)

theorem read_of_next {s after : σ} {buffer rest : List α}
    (taken : step s buffer = .next after rest) : read step s buffer = read step after rest := by
  calc read step s buffer
      = drain step buffer.length after rest := by
        unfold read
        rw [drain, taken]
    _ = read step after rest :=
        drain_eq_drain steady _ _ after rest (steady.shrinks taken) (Nat.lt_succ_self _)

theorem read_of_leads {now later : σ × List α} (leads : Leads step now later) :
    read step now.1 now.2 = read step later.1 later.2 := by
  induction leads with
  | refl => rfl
  | tail _ taken inductionHypothesis => rw [inductionHypothesis, read_of_next steady taken]

/-- Reading ends where steps lead to: where the reader waits, or where it stops. -/
theorem read_ends (s : σ) (buffer : List α) : ∃ after rest, Leads step (s, buffer) (after, rest) ∧
    (step after rest = .more ∨ ∃ r, step after rest = .halt r) := by
  induction size : buffer.length using Nat.strongRecOn generalizing s buffer with
  | ind size inductionHypothesis =>
      cases taken : step s buffer with
      | more => exact ⟨s, buffer, .refl, .inl taken⟩
      | halt r => exact ⟨s, buffer, .refl, .inr ⟨r, taken⟩⟩
      | next after rest =>
          obtain ⟨last, left, leads, ends⟩ :=
            inductionHypothesis rest.length (size ▸ steady.shrinks taken) after rest rfl
          exact ⟨last, left, .head taken leads, ends⟩

theorem read_eq_ok_iff {s after : σ} {buffer rest : List α} :
    read step s buffer = .ok (after, rest) ↔
      Leads step (s, buffer) (after, rest) ∧ step after rest = .more := by
  constructor
  · intro result
    obtain ⟨last, left, leads, waits | ⟨r, halts⟩⟩ := read_ends steady s buffer
    · rw [read_of_leads steady leads, read_of_more waits] at result
      cases result
      exact ⟨leads, waits⟩
    · rw [read_of_leads steady leads, read_of_halt halts] at result
      cases result
  · rintro ⟨leads, waits⟩
    rw [read_of_leads steady leads, read_of_more waits]

theorem read_eq_error_iff {s : σ} {buffer : List α} {r : ρ} :
    read step s buffer = .error r ↔
      ∃ after rest, Leads step (s, buffer) (after, rest) ∧ step after rest = .halt r := by
  constructor
  · intro result
    obtain ⟨last, left, leads, waits | ⟨stop, halts⟩⟩ := read_ends steady s buffer
    · rw [read_of_leads steady leads, read_of_more waits] at result
      cases result
    · rw [read_of_leads steady leads, read_of_halt halts] at result
      cases result
      exact ⟨last, left, leads, halts⟩
  · rintro ⟨after, rest, leads, halts⟩
    rw [read_of_leads steady leads, read_of_halt halts]

theorem leads_append {now later : σ × List α} (leads : Leads step now later) (more : List α) :
    Leads step (now.1, now.2 ++ more) (later.1, later.2 ++ more) := by
  induction leads with
  | refl => exact .refl
  | tail _ taken inductionHypothesis => exact inductionHypothesis.tail (steady.next taken more)

/-- What the reader stopped with it stops with when more bytes come. -/
theorem read_append_of_error {s : σ} {buffer : List α} {r : ρ}
    (stopped : read step s buffer = .error r) (more : List α) :
    read step s (buffer ++ more) = .error r := by
  obtain ⟨after, rest, leads, halts⟩ := (read_eq_error_iff steady).mp stopped
  exact (read_eq_error_iff steady).mpr
    ⟨after, rest ++ more, leads_append steady leads more, steady.halt halts more⟩

/-- **Reading goes on where it waited.** -/
theorem read_append {s after : σ} {buffer rest : List α}
    (waited : read step s buffer = .ok (after, rest)) (more : List α) :
    read step s (buffer ++ more) = read step after (rest ++ more) := by
  have leads := ((read_eq_ok_iff steady).mp waited).1
  exact read_of_leads steady (leads_append steady leads more)

end Opencodepp.Library.Incremental
