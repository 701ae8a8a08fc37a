import Opencodepp.Core.Error
import Opencodepp.Library.ByteString

/-!
# The retry policy

Exponential backoff with deterministic jitter.  The jitter ratio is a rational and its
products are taken exactly before they are truncated.
-/

set_option autoImplicit false

namespace Opencodepp.Net

open Opencodepp.Core
open Opencodepp.Library

/-- The backoff budget. -/
structure RetryBudget where
  maxRetries : UInt32
  baseDelayMs : UInt32
  jitter : Rat
  maxDelayMs : UInt32
  deriving Repr, DecidableEq

/-- A decision about one failed attempt. -/
structure RetryDecision where
  retry : Bool
  delayMs : Nat
  exhausted : Bool
  reason : Bytes
  deriving Repr, DecidableEq

/-- One step of the xorshift generator. -/
def nextRandom (s : UInt32) : UInt32 :=
  let s := s ^^^ (s <<< 13)
  let s := s ^^^ (s >>> 17)
  s ^^^ (s <<< 5)

/-- The seed of a request; zero keeps the default. -/
def setSeed (seed : UInt32) : UInt32 := if seed = 0 then 0x9e37 else seed

/-- A delay moved by the jitter, and the next seed. -/
def jitterMs (budget : RetryBudget) (seed : UInt32) (base : Nat) : Nat × UInt32 :=
  if base = 0 then (0, seed)
  else
    let swing := ((base : Rat) * budget.jitter).floor.toNat
    let lo := (base + 2 ^ 64 - swing) % 2 ^ 64
    let hi := base + swing
    if hi ≤ lo then (base % 2 ^ 32, seed)
    else
      let seed := nextRandom seed
      let span := (hi - lo + 1) % 2 ^ 32
      ((lo + seed.toNat % span) % 2 ^ 32, seed)

/-- The doubled and capped delay before jitter, after a number of doublings. -/
def doubledDelay (budget : RetryBudget) : Nat → Nat → Nat
  | 0, d => d
  | left + 1, d =>
      if d < budget.maxDelayMs.toNat then
        doubledDelay budget left (min (d * 2) budget.maxDelayMs.toNat)
      else d

/-- The backoff delay of an attempt, counted from one. -/
def nextDelayMs (budget : RetryBudget) (seed : UInt32) (attempt : Nat) : Nat × UInt32 :=
  let d := doubledDelay budget (attempt - 1) budget.baseDelayMs.toNat
  jitterMs budget seed (min d budget.maxDelayMs.toNat)

def retryable (ec : ErrorCode) : Bool := retryClass ec.code = .retryable

/-- Whether a failure is retried after an attempt, and the next seed. -/
def decideRetry (budget : RetryBudget) (seed : UInt32) (ec : ErrorCode) (attempt : Nat) :
    RetryDecision × UInt32 :=
  if ec.ok then (⟨false, 0, false, str "ok"⟩, seed)
  else if !retryable ec then (⟨false, 0, true, str "non-retryable"⟩, seed)
  else if budget.maxRetries.toNat ≤ attempt then (⟨false, 0, true, str "exhausted"⟩, seed)
  else
    let (delay, seed) := nextDelayMs budget seed attempt
    (⟨true, delay, false, str "backoff"⟩, seed)

/-- **A retry is only decided for a retryable failure before the last attempt.** -/
theorem decideRetry_retry_iff (budget : RetryBudget) (seed : UInt32) (ec : ErrorCode)
    (attempt : Nat) :
    (decideRetry budget seed ec attempt).1.retry = true ↔
      ec.ok = false ∧ retryable ec = true ∧ attempt < budget.maxRetries.toNat := by
  unfold decideRetry
  cases isOk : ec.ok with
  | true => simp
  | false =>
      cases canRetry : retryable ec with
      | false => simp
      | true =>
          by_cases used : budget.maxRetries.toNat ≤ attempt
          · simp [used]
          · simpa [used] using Nat.lt_of_not_le used

end Opencodepp.Net
