import Mathlib.Data.Nat.Basic
import Mathlib.Data.List.Basic

/-!
# Bisection

A bisection looks for the last place up to which something fits.  It asks at the middle of what is
left and goes on in one of the halves, so that it knows the answer at few places only; whether
there is a last place, and whether it is the only one, it does not see.  It ends at a given place
exactly when every place that it passes on the way there answers in favour of that place
(`search_eq_iff`).
-/

set_option autoImplicit false

namespace Opencodepp.Library.Bisection

/-- The place that a bisection between two places ends at. -/
def search (fits : Nat → Bool) : Nat → Nat → Nat → Nat
  | 0, low, _ => low
  | fuel + 1, low, high =>
      if low < high then
        let mid := (low + high + 1) / 2
        if fits mid then search fits fuel mid high else search fits fuel low (mid - 1)
      else low

/-- The places at which a bisection asks on its way to a target. -/
def probes (target : Nat) : Nat → Nat → Nat → List Nat
  | 0, _, _ => []
  | fuel + 1, low, high =>
      if low < high then
        let mid := (low + high + 1) / 2
        mid :: if mid ≤ target then probes target fuel mid high
          else probes target fuel low (mid - 1)
      else []

variable {fits : Nat → Bool} {fuel low high target : Nat}

theorem search_mem (fuel : Nat) : ∀ low high : Nat, low ≤ high →
    low ≤ search fits fuel low high ∧ search fits fuel low high ≤ high := by
  induction fuel with
  | zero => exact fun low high order => ⟨Nat.le_refl low, order⟩
  | succ fuel inductionHypothesis =>
      intro low high order
      unfold search
      split
      · dsimp only
        split
        · have inside := inductionHypothesis ((low + high + 1) / 2) high (by omega)
          omega
        · have inside := inductionHypothesis low ((low + high + 1) / 2 - 1) (by omega)
          omega
      · exact ⟨Nat.le_refl low, order⟩

/-- **Where a bisection ends.**  It ends at a place exactly when each answer on the way points
there. -/
theorem search_eq_iff (fuel : Nat) : ∀ low high : Nat, high - low ≤ fuel → low ≤ target →
    target ≤ high →
      (search fits fuel low high = target ↔
        ∀ mid ∈ probes target fuel low high, (fits mid = true ↔ mid ≤ target)) := by
  induction fuel with
  | zero =>
      intro low high enough above below
      refine ⟨fun _ mid member => absurd member List.not_mem_nil, fun _ => ?_⟩
      show low = target
      omega
  | succ fuel inductionHypothesis =>
      intro low high enough above below
      unfold search probes
      by_cases open_ : low < high
      · rw [if_pos open_, if_pos open_]
        dsimp only
        have upper := @search_mem fits fuel ((low + high + 1) / 2) high (by omega)
        have lower := @search_mem fits fuel low ((low + high + 1) / 2 - 1) (by omega)
        rw [List.forall_mem_cons]
        by_cases before : (low + high + 1) / 2 ≤ target
        · rw [if_pos before]
          have half := inductionHypothesis ((low + high + 1) / 2) high (by omega) before below
          cases answer : fits ((low + high + 1) / 2) with
          | true => simp [before, half]
          | false =>
              -- the bisection leaves the target behind
              have missed : search fits fuel low ((low + high + 1) / 2 - 1) ≠ target := by omega
              simp [before, missed]
        · rw [if_neg before]
          have half := inductionHypothesis low ((low + high + 1) / 2 - 1) (by omega) above
            (by omega)
          cases answer : fits ((low + high + 1) / 2) with
          | true =>
              have missed : search fits fuel ((low + high + 1) / 2) high ≠ target := by omega
              simp [before, missed]
          | false => simp [before, half]
      · rw [if_neg open_, if_neg open_]
        refine ⟨fun _ mid member => absurd member List.not_mem_nil, fun _ => ?_⟩
        omega

end Opencodepp.Library.Bisection
