/-!
# The error vocabulary

Every failure of the engine is an `Err` value with a detail number, and every
error is classified once as deterministic, transient or fatal.  A function that
returns early does so with a `Failure`: an error code together with the proof
that it is not `ok`, so that an early return can never be mistaken for success.
-/

set_option autoImplicit false

namespace Opencodepp.Core

/-- The complete error vocabulary, in the order of its serialized numbers. -/
inductive Err
  | ok
  | eNetConnect
  | eNetResolve
  | eNetTls
  | eNetHttp
  | eNetTimeout
  | eNetOverflow
  | eNetOffline
  | eProtoParse
  | eAuth
  | eRateLimit
  | eProviderErr
  | eModelUnsup
  | eInvalidCfg
  | eMissingCfg
  | eBusy
  | eCancelled
  | eInternal
  | eNotImpl
  | eOom
  | eToolReject
  | eToolNotfound
  | eVerifyFail
  | eBudget
  | eAborted
  | eOverflow
  deriving Repr, DecidableEq

/-- Whether trying again may help. -/
inductive Retry
  | none
  | retryable
  | fatal
  deriving Repr, DecidableEq

/-- The one place that decides whether an error may be retried. -/
def retryClass : Err → Retry
  | .eNetConnect | .eNetResolve | .eNetTls | .eNetHttp | .eNetTimeout | .eNetOverflow
  | .eNetOffline | .eRateLimit | .eProviderErr => .retryable
  | .eAuth | .eInvalidCfg | .eMissingCfg | .eModelUnsup | .eToolReject | .eToolNotfound
  | .eProtoParse | .eVerifyFail | .eBudget | .eAborted | .eBusy | .eNotImpl
  | .eOverflow => .none
  | .eInternal | .eOom => .fatal
  | .ok | .eCancelled => .none

/-- The name an error carries in events and feedback. -/
def errName : Err → String
  | .ok => "ok"
  | .eNetConnect => "net_connect"
  | .eNetResolve => "net_resolve"
  | .eNetTls => "net_tls"
  | .eNetHttp => "net_http"
  | .eNetTimeout => "net_timeout"
  | .eNetOverflow => "net_overflow"
  | .eNetOffline => "net_offline"
  | .eProtoParse => "proto_parse"
  | .eAuth => "auth"
  | .eRateLimit => "rate_limit"
  | .eProviderErr => "provider_err"
  | .eModelUnsup => "model_unsupported"
  | .eInvalidCfg => "invalid_config"
  | .eMissingCfg => "missing_config"
  | .eBusy => "busy"
  | .eCancelled => "cancelled"
  | .eInternal => "internal"
  | .eNotImpl => "not_implemented"
  | .eOom => "out_of_memory"
  | .eToolReject => "tool_rejected"
  | .eToolNotfound => "tool_not_found"
  | .eVerifyFail => "verify_failed"
  | .eBudget => "budget_exhausted"
  | .eAborted => "aborted"
  | .eOverflow => "buffer_overflow"

/-- An error value with its detail number. -/
structure ErrorCode where
  code : Err
  detail : UInt32
  deriving Repr, DecidableEq

namespace ErrorCode

/-- Success. -/
def success : ErrorCode := ⟨.ok, 0⟩

/-- The test every caller makes. -/
def ok (ec : ErrorCode) : Bool := ec.code == .ok

/-- The name reported for the error. -/
def message (ec : ErrorCode) : String := errName ec.code

/-- The serialized number of the error, as events carry it. -/
def status (ec : ErrorCode) : Nat := ec.code.ctorIdx

end ErrorCode

/-- Whether an error stands for a failure. -/
def Err.isFailure : Err → Bool
  | .ok => false
  | _ => true

theorem Err.ne_ok_of_isFailure {e : Err} (failed : e.isFailure = true) : e ≠ .ok := by
  intro same
  rw [same] at failed
  cases failed

/-- A name for the proof by evaluation, so that a failure built at two places is the same term. -/
theorem certain : true = true := rfl

/-- An error code that is not `ok`. -/
structure Failure where
  ec : ErrorCode
  failed : ec.ok = false
  deriving DecidableEq

namespace Failure

@[ext] theorem ext {a b : Failure} (same : a.ec = b.ec) : a = b := by
  cases a
  cases b
  simpa using same

/-- The failure with a given error and detail zero. -/
def of (e : Err) (failed : e ≠ .ok := by exact Err.ne_ok_of_isFailure certain) : Failure :=
  ⟨⟨e, 0⟩, by simpa [ErrorCode.ok] using failed⟩

@[simp] theorem of_ec (e : Err) (failed : e ≠ .ok) : (of e failed).ec = ⟨e, 0⟩ := rfl

end Failure

/-- Turn a returned error code into success or a failure. -/
def ErrorCode.check (ec : ErrorCode) : Except Failure Unit :=
  if failed : ec.ok = false then .error ⟨ec, failed⟩ else .ok ()

end Opencodepp.Core
