import Mathlib.Algebra.Order.Ring.Rat
import Mathlib.Tactic.Linarith
import Mathlib.Tactic.Ring
import Opencodepp.Library.Xorshift
import Opencodepp.Net.Policy

/-!
# The bounds of the backoff delay

The delay wanted for an attempt is doubled up to the cap and then moved by the jitter, to both
sides.  The cap comes first, so that the jitter moves a delay near the cap beyond it.  For every
seed the delay keeps to its bounds, without a number being cut off on the way, exactly when what
is wanted and its whole swing fit under the cap (`nextDelayMs_bounded_iff`).  That no weaker
condition will do rests on the generator: every number but zero is drawn after some seed
(`nextRandom_surjective`).
-/

set_option autoImplicit false

namespace Opencodepp.Net

open Opencodepp.Library

/-! ## The generator -/

theorem nextRandom_toBitVec (s : UInt32) : (nextRandom s).toBitVec =
    Xorshift.mixLeft 5 (Xorshift.mixRight 17 (Xorshift.mixLeft 13 s.toBitVec)) := rfl

/-- Every number is drawn after some seed. -/
theorem nextRandom_surjective : Function.Surjective nextRandom := by
  intro drawn
  obtain ⟨third, thirdMixed⟩ :=
    Xorshift.mixLeft_surjective (show 0 < 5 by decide) drawn.toBitVec
  obtain ⟨second, secondMixed⟩ := Xorshift.mixRight_surjective (show 0 < 17 by decide) third
  obtain ⟨first, firstMixed⟩ := Xorshift.mixLeft_surjective (show 0 < 13 by decide) second
  refine ⟨⟨first⟩, UInt32.toBitVec_inj.mp ?_⟩
  rw [nextRandom_toBitVec, firstMixed, secondMixed, thirdMixed]

/-- Every number but zero is drawn after a seed that can be set. -/
theorem exists_seed_of_ne_zero {drawn : UInt32} (nonzero : drawn ≠ 0) :
    ∃ seed, nextRandom (setSeed seed) = drawn := by
  obtain ⟨seed, mixed⟩ := nextRandom_surjective drawn
  have usable : seed ≠ 0 := by
    rintro rfl
    exact nonzero mixed.symm
  refine ⟨seed, ?_⟩
  rw [setSeed, if_neg usable, mixed]

/-! ## What the delay is made of -/

/-- The delay before jitter: the base doubled with every attempt, up to the cap. -/
def wantedDelay (budget : RetryBudget) (attempt : Nat) : Nat :=
  min (budget.baseDelayMs.toNat * 2 ^ (attempt - 1)) budget.maxDelayMs.toNat

/-- How far the jitter moves the delay at most. -/
def swing (budget : RetryBudget) (attempt : Nat) : Nat :=
  ((wantedDelay budget attempt : Rat) * budget.jitter).floor.toNat

variable {budget : RetryBudget} {attempt : Nat}

theorem min_doubledDelay (rounds d : Nat) :
    min (doubledDelay budget rounds d) budget.maxDelayMs.toNat =
      min (d * 2 ^ rounds) budget.maxDelayMs.toNat := by
  induction rounds generalizing d with
  | zero => simp [doubledDelay]
  | succ rounds inductionHypothesis =>
      have grows : 0 < 2 ^ rounds := Nat.two_pow_pos rounds
      rw [doubledDelay]
      split
      · next below =>
          rw [inductionHypothesis, pow_succ', ← Nat.mul_assoc]
          obtain within | beyond := Nat.le_total (d * 2) budget.maxDelayMs.toNat
          · rw [Nat.min_eq_left within]
          · have capped := Nat.le_mul_of_pos_right budget.maxDelayMs.toNat grows
            have more := Nat.mul_le_mul_right (2 ^ rounds) beyond
            rw [Nat.min_eq_right beyond]
            omega
      · next reached =>
          have more := Nat.le_mul_of_pos_right d (Nat.two_pow_pos (rounds + 1))
          omega

theorem nextDelayMs_eq (budget : RetryBudget) (seed : UInt32) (attempt : Nat) :
    nextDelayMs budget seed attempt = jitterMs budget seed (wantedDelay budget attempt) := by
  unfold nextDelayMs wantedDelay
  dsimp only
  rw [min_doubledDelay]

/-- The jitter of a delay that is not zero, in these terms. -/
theorem nextDelayMs_of_ne_zero (seed : UInt32) (nonzero : wantedDelay budget attempt ≠ 0) :
    (nextDelayMs budget seed attempt).1 =
      let lo := (wantedDelay budget attempt + 2 ^ 64 - swing budget attempt) % 2 ^ 64
      let hi := wantedDelay budget attempt + swing budget attempt
      if hi ≤ lo then wantedDelay budget attempt % 2 ^ 32
      else (lo + (nextRandom seed).toNat % ((hi - lo + 1) % 2 ^ 32)) % 2 ^ 32 := by
  rw [nextDelayMs_eq, jitterMs, if_neg nonzero]
  exact apply_ite Prod.fst _ _ _

theorem wantedDelay_le (budget : RetryBudget) (attempt : Nat) :
    wantedDelay budget attempt ≤ budget.maxDelayMs.toNat := Nat.min_le_right ..

theorem wantedDelay_lt (budget : RetryBudget) (attempt : Nat) :
    wantedDelay budget attempt < 2 ^ 32 :=
  (wantedDelay_le budget attempt).trans_lt (UInt32.toNat_lt _)

section Jitter

variable (nonneg : 0 ≤ budget.jitter) (below : budget.jitter < 1)

include nonneg in
theorem swing_cast_le (attempt : Nat) :
    (swing budget attempt : Rat) ≤ (wantedDelay budget attempt : Rat) * budget.jitter := by
  have product : 0 ≤ (wantedDelay budget attempt : Rat) * budget.jitter :=
    mul_nonneg (Nat.cast_nonneg _) nonneg
  have floored : 0 ≤ ((wantedDelay budget attempt : Rat) * budget.jitter).floor :=
    Rat.le_floor_iff.mpr product
  have cast : ((swing budget attempt : Int) : Rat) =
      (((wantedDelay budget attempt : Rat) * budget.jitter).floor : Rat) := by
    unfold swing
    rw [Int.toNat_of_nonneg floored]
  rw [Int.cast_natCast] at cast
  rw [cast]
  exact Rat.floor_le _

include nonneg below in
/-- The jitter never takes the whole delay. -/
theorem swing_lt (wanted : 0 < wantedDelay budget attempt) :
    swing budget attempt < wantedDelay budget attempt := by
  have moved := swing_cast_le nonneg attempt
  have positive : (0 : Rat) < wantedDelay budget attempt := Nat.cast_pos.mpr wanted
  have smaller : (wantedDelay budget attempt : Rat) * budget.jitter <
      wantedDelay budget attempt := by
    calc (wantedDelay budget attempt : Rat) * budget.jitter
        < (wantedDelay budget attempt : Rat) * 1 := (mul_lt_mul_iff_right₀ positive).mpr below
      _ = wantedDelay budget attempt := mul_one _
  exact Nat.cast_lt.mp (lt_of_le_of_lt moved smaller)

include nonneg below in
theorem swing_le (attempt : Nat) : swing budget attempt ≤ wantedDelay budget attempt := by
  obtain zero | positive := Nat.eq_zero_or_pos (wantedDelay budget attempt)
  · have moved := swing_cast_le nonneg attempt
    rw [zero, Nat.cast_zero, zero_mul] at moved
    have none : swing budget attempt ≤ 0 := by exact_mod_cast moved
    omega
  · exact (swing_lt nonneg below positive).le

include nonneg below in
/-- What the code computes, when the span of the jitter fits into its type. -/
theorem nextDelayMs_of_fits (seed : UInt32) (fits : 2 * swing budget attempt + 1 < 2 ^ 32) :
    (nextDelayMs budget seed attempt).1 =
      (wantedDelay budget attempt - swing budget attempt +
        (nextRandom seed).toNat % (2 * swing budget attempt + 1)) % 2 ^ 32 := by
  have less := swing_le nonneg below attempt
  have small := wantedDelay_lt budget attempt
  have lowEq : (wantedDelay budget attempt + 2 ^ 64 - swing budget attempt) % 2 ^ 64 =
      wantedDelay budget attempt - swing budget attempt := by omega
  by_cases zero : wantedDelay budget attempt = 0
  · have still : swing budget attempt = 0 := by omega
    rw [nextDelayMs_eq, jitterMs, if_pos zero, zero, still]
    omega
  · rw [nextDelayMs_of_ne_zero seed zero]
    dsimp only
    rw [lowEq]
    split
    · next still =>
        have none : swing budget attempt = 0 := by omega
        rw [none]
        omega
    · next moves =>
        have spanEq : wantedDelay budget attempt + swing budget attempt -
            (wantedDelay budget attempt - swing budget attempt) + 1 =
              2 * swing budget attempt + 1 := by omega
        rw [spanEq, Nat.mod_eq_of_lt fits]

include nonneg in
/-- What the jitter leaves at least. -/
theorem floor_le_of_swing_le {delay : Nat}
    (least : wantedDelay budget attempt ≤ delay + swing budget attempt) :
    ((1 - budget.jitter) * (wantedDelay budget attempt : Rat)).floor ≤ (delay : Int) := by
  have moved := swing_cast_le nonneg attempt
  have leastCast : (wantedDelay budget attempt : Rat) ≤ (delay : Rat) + swing budget attempt := by
    exact_mod_cast least
  have product : (1 - budget.jitter) * (wantedDelay budget attempt : Rat) =
      wantedDelay budget attempt - wantedDelay budget attempt * budget.jitter := by ring
  have bound : (1 - budget.jitter) * (wantedDelay budget attempt : Rat) ≤ ((delay : Int) : Rat) := by
    rw [product, Int.cast_natCast]
    linarith
  calc ((1 - budget.jitter) * (wantedDelay budget attempt : Rat)).floor
      ≤ (((delay : Int) : Rat)).floor := Rat.floor_monotone bound
    _ = (delay : Int) := Rat.floor_intCast _

end Jitter

/-! ## When the delay keeps to its bounds -/

/-- The delay is between what the jitter may leave of the wanted delay and the cap, and the
numbers on the way fit into their types: the doubled delays into 64 bits, the span of the jitter
and the delay that is drawn from it into 32. -/
structure Bounded (budget : RetryBudget) (seed : UInt32) (attempt : Nat) : Prop where
  atMost : (nextDelayMs budget seed attempt).1 ≤ budget.maxDelayMs.toNat
  atLeast : ((1 - budget.jitter) * (wantedDelay budget attempt : Rat)).floor ≤
    ((nextDelayMs budget seed attempt).1 : Int)
  doubling : ∀ rounds, doubledDelay budget rounds budget.baseDelayMs.toNat <
    budget.maxDelayMs.toNat →
      doubledDelay budget rounds budget.baseDelayMs.toNat * 2 < 2 ^ 64
  jitterSpan : 2 * swing budget attempt + 1 < 2 ^ 32
  lastCast : wantedDelay budget attempt - swing budget attempt +
    (nextRandom seed).toNat % (2 * swing budget attempt + 1) < 2 ^ 32

/-- **The delays of an attempt are bounded for every seed exactly when the wanted delay and its
swing fit under the cap.** -/
theorem nextDelayMs_bounded_iff (budget : RetryBudget) (attempt : Nat)
    (nonneg : 0 ≤ budget.jitter) (below : budget.jitter < 1) :
    (∀ seed, Bounded budget (setSeed seed) attempt) ↔
      wantedDelay budget attempt + swing budget attempt ≤ budget.maxDelayMs.toNat := by
  have less := swing_le nonneg below attempt
  have capped := wantedDelay_le budget attempt
  have word := UInt32.toNat_lt budget.maxDelayMs
  constructor
  · intro bounded
    have fits := (bounded 0).jitterSpan
    obtain zero | moves := Nat.eq_zero_or_pos (swing budget attempt)
    · omega
    · -- the seed after which the largest delay is drawn
      have drawnEq : (UInt32.ofNat (2 * swing budget attempt)).toNat =
          2 * swing budget attempt := by
        rw [UInt32.toNat_ofNat']
        exact Nat.mod_eq_of_lt (by omega)
      have nonzero : UInt32.ofNat (2 * swing budget attempt) ≠ 0 := by
        intro same
        rw [same, UInt32.toNat_zero] at drawnEq
        omega
      obtain ⟨seed, drawn⟩ := exists_seed_of_ne_zero nonzero
      have largest : (nextRandom (setSeed seed)).toNat % (2 * swing budget attempt + 1) =
          2 * swing budget attempt := by
        rw [drawn, drawnEq]
        exact Nat.mod_eq_of_lt (Nat.lt_succ_self _)
      have within := (bounded seed).lastCast
      have most := (bounded seed).atMost
      rw [largest] at within
      rw [nextDelayMs_of_fits nonneg below _ fits, largest, Nat.mod_eq_of_lt within] at most
      omega
  · intro roomy seed
    have fits : 2 * swing budget attempt + 1 < 2 ^ 32 := by
      obtain zero | positive := Nat.eq_zero_or_pos (wantedDelay budget attempt)
      · omega
      · have strictly := swing_lt nonneg below positive
        omega
    have drawn : (nextRandom (setSeed seed)).toNat % (2 * swing budget attempt + 1) <
        2 * swing budget attempt + 1 := Nat.mod_lt _ (Nat.succ_pos _)
    have lastCast : wantedDelay budget attempt - swing budget attempt +
        (nextRandom (setSeed seed)).toNat % (2 * swing budget attempt + 1) < 2 ^ 32 := by omega
    have delayEq := nextDelayMs_of_fits nonneg below (setSeed seed) fits
    rw [Nat.mod_eq_of_lt lastCast] at delayEq
    refine ⟨?_, ?_, ?_, fits, lastCast⟩
    · rw [delayEq]
      omega
    · rw [delayEq]
      exact floor_le_of_swing_le nonneg (by omega)
    · intro rounds reached
      omega

/-- The budget a policy has by default. -/
def defaultBudget : RetryBudget := ⟨8, 300, 3 / 10, 30000⟩

/-- The first delay of the default budget keeps to its bounds. -/
theorem nextDelayMs_first : Bounded defaultBudget (setSeed 0) 1 :=
  (nextDelayMs_bounded_iff defaultBudget 1 (by decide +kernel) (by decide +kernel)).mpr
    (by decide +kernel) 0

/-- **The eighth delay of the default budget and seed exceeds the cap.** -/
theorem nextDelayMs_eighth : (nextDelayMs defaultBudget (setSeed 0) 8).1 = 35824 ∧
    ¬Bounded defaultBudget (setSeed 0) 8 := by
  have drawn : (nextDelayMs defaultBudget (setSeed 0) 8).1 = 35824 := by decide +kernel
  refine ⟨drawn, fun bounded => ?_⟩
  have most := bounded.atMost
  rw [drawn] at most
  exact absurd most (by decide)

end Opencodepp.Net
