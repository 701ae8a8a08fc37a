import Opencodepp.Abi.Handle
import Opencodepp.Agent.States

/-!
# Runs and the callbacks of a host

The calls a host makes, and the callbacks the engine makes while it runs a task.  A host may call
the engine again from a callback; a running engine refuses what would change its handle, so the
handle a run has set up serves every callback of the run (`Task.serve_busy`), whatever the host
does in them.

A run may bring its own event callback with a userdata of its own.  The handle has one userdata
for all callbacks, and the run overwrites it: the permission and log callbacks get the userdata
of the run.  That is the configured one only when the two are the same (`override_contract_iff`).
-/

set_option autoImplicit false

namespace Opencodepp.Abi

open Opencodepp.Agent
open Opencodepp.App
open Opencodepp.Core
open Opencodepp.Library

/-! ## Callbacks -/

inductive Level
  | trace
  | debug
  | info
  | warn
  | error
  deriving Repr, DecidableEq

/-- The level as a host sees it. -/
def hostLevel : Level → Nat
  | .trace => 0
  | .debug => 0
  | .info => 1
  | .warn => 2
  | .error => 3

/-- What the engine has to tell its host, or to ask it. -/
inductive Request
  | event (ev : AgentEvent)
  | permission (tool args : Bytes)
  | log (level : Level) (line : Bytes)
  deriving Repr, DecidableEq

/-- Whether a request goes to the event callback. -/
def Request.isEvent : Request → Bool
  | .event _ => true
  | _ => false

/-- What a callback is given beside its userdata. -/
inductive Payload
  | event (ev : AgentEvent) (session : UInt32)
  | permission (tool args : Bytes)
  | log (level : Nat) (message : Bytes)
  deriving Repr, DecidableEq

/-- A call of a callback. -/
structure Delivery where
  callback : Callback
  userdata : Nat
  payload : Payload
  deriving Repr, DecidableEq

def Delivery.isEvent (d : Delivery) : Bool :=
  match d.payload with
  | .event .. => true
  | _ => false

/-- Call a callback, if it is registered. -/
def deliver (fn : Option Callback) (userdata : Nat) (payload : Payload) : Option Delivery :=
  fn.map fun f => ⟨f, userdata, payload⟩

theorem map_deliver (fn : Option Callback) (userdata other : Nat) (payload : Payload) :
    (deliver fn userdata payload).map (fun d => { d with userdata := other }) =
      deliver fn other payload := by
  cases fn <;> rfl

def dispatchEvent (h : EngineHandle) (ev : AgentEvent) : Option Delivery :=
  deliver h.eventFn h.userdata (.event ev h.taskSeq)

def dispatchPermission (h : EngineHandle) (tool args : Bytes) : Option Delivery :=
  deliver h.permFn h.userdata (.permission (cString tool) (cString args))

def dispatchLog (h : EngineHandle) (level : Level) (line : Bytes) : Option Delivery :=
  deliver h.logFn h.userdata (.log (hostLevel level) (cString line))

/-- The callback a request leads to, if its hook is installed and the host has registered one. -/
def dispatch (h : EngineHandle) : Request → Option Delivery
  | .event ev => if h.engine.eventHook then dispatchEvent h ev else none
  | .permission tool args =>
      if h.engine.gate.any (·.hooked) then dispatchPermission h tool args else none
  | .log level line => if h.engine.logHook then dispatchLog h level line else none

/-- A callback gets the userdata of the handle; the event callback is called for events, and for
nothing else. -/
theorem dispatch_spec {h : EngineHandle} {request : Request} {d : Delivery}
    (called : dispatch h request = some d) :
    d.userdata = h.userdata ∧ d.isEvent = request.isEvent := by
  cases request <;>
    simp only [dispatch, dispatchEvent, dispatchPermission, dispatchLog, deliver,
      Option.ite_none_right_eq_some, Option.map_eq_some_iff] at called <;>
    obtain ⟨_, _, _, rfl⟩ := called <;> exact ⟨rfl, rfl⟩

/-! ## Calls -/

mutual

/-- A call a host makes: a new configuration, a run with the task that comes of it, or a
cancellation, which does not change the handle. -/
inductive HostCall
  | setConfig (c : Option HostConfig)
  | run (prompt : Option Bytes) (onEvent : Option Callback) (userdata : Nat) (task : Task)
  | cancel

/-- The calls a host makes, one after the other. -/
inductive HostCalls
  | nil
  | cons (first : HostCall) (rest : HostCalls)

/-- What a task does to the host: requests, each with the calls the host makes while it serves
it, up to the result, which is missing when an exception ends the task. -/
inductive Task
  | finish (result : Option ErrorCode)
  | ask (request : Request) (reaction : HostCalls) (rest : Task)

end

/-- The handle during a run. -/
def EngineHandle.opened (h : EngineHandle) (onEvent : Option Callback) (userdata : Nat) :
    EngineHandle :=
  { h with
    engine := { setEventCb h.engine with busy := true }
    eventFn := onEvent.orElse fun _ => h.eventFn
    userdata := if onEvent.isSome then userdata else h.userdata
    taskSeq := h.taskSeq + 1 }

/-- The handle after a run that started from `h`. -/
def EngineHandle.closed (during : EngineHandle) (onEvent : Option Callback) (h : EngineHandle) :
    EngineHandle :=
  { during with
    engine.busy := false
    eventFn := if onEvent.isSome then h.eventFn else during.eventFn
    userdata := if onEvent.isSome then h.userdata else during.userdata }

/-- The status of a call, the handle after it and the callbacks made in it. -/
structure Performed where
  status : Status
  handle : EngineHandle
  log : List Delivery

section Performing

variable (w : HostWorld)

mutual

def HostCall.perform : HostCall → EngineHandle → Performed
  | .setConfig c, h => ⟨(Abi.setConfig w h c).1, (Abi.setConfig w h c).2, []⟩
  | .cancel, h => ⟨.ok, h, []⟩
  | .run prompt onEvent userdata task, h =>
      if prompt = none then ⟨.validation, h, []⟩
      else if h.engine.busy then ⟨.busy, h, []⟩
      else
        let served := task.serve (h.opened onEvent userdata)
        match served.1 with
        | some ec => ⟨statusOf ec, served.2.1.closed onEvent h, served.2.2⟩
        -- The handler of an exception returns at once.
        | none => ⟨.fatal, served.2.1, served.2.2⟩

def HostCalls.perform : HostCalls → EngineHandle → EngineHandle × List Delivery
  | .nil, h => (h, [])
  | .cons first rest, h =>
      let done := first.perform h
      let after := rest.perform done.handle
      (after.1, done.log ++ after.2)

/-- The result of a task, the handle after it and the callbacks made in it. -/
def Task.serve : Task → EngineHandle → Option ErrorCode × EngineHandle × List Delivery
  | .finish result, h => (result, h, [])
  | .ask request reaction rest, h =>
      match dispatch h request with
      | none => rest.serve h
      | some d =>
          let reacted := reaction.perform h
          let after := rest.serve reacted.1
          (after.1, after.2.1, d :: reacted.2 ++ after.2.2)

end

/-! ## What a running engine refuses -/

variable {w}

/-- A call to a running engine changes nothing and makes no callback. -/
theorem HostCall.perform_busy (call : HostCall) {h : EngineHandle} (busy : h.engine.busy = true) :
    (call.perform w h).handle = h ∧ (call.perform w h).log = [] := by
  cases call with
  | setConfig c =>
      refine ⟨?_, rfl⟩
      show (Abi.setConfig w h c).2 = h
      apply setConfig_refused
      cases c with
      | none => trivial
      | some c => exact Or.inl busy
  | cancel => exact ⟨rfl, rfl⟩
  | run prompt onEvent userdata task =>
      unfold HostCall.perform
      by_cases missing : prompt = none
      · simp [missing]
      · simp [missing, busy]

theorem HostCalls.perform_busy {h : EngineHandle} (busy : h.engine.busy = true) :
    ∀ calls : HostCalls, calls.perform w h = (h, [])
  | .nil => rfl
  | .cons first rest => by
      obtain ⟨same, silent⟩ := first.perform_busy (w := w) busy
      unfold HostCalls.perform
      dsimp only
      rw [same, silent, HostCalls.perform_busy busy rest]
      rfl

/-- What a task asks for. -/
def Task.requests : Task → List Request
  | .finish _ => []
  | .ask request _ rest => request :: rest.requests

/-- The result of a task. -/
def Task.result : Task → Option ErrorCode
  | .finish result => result
  | .ask _ _ rest => rest.result

/-- **One handle serves all callbacks of a task**, whatever the host does in them. -/
theorem Task.serve_busy {h : EngineHandle} (busy : h.engine.busy = true) :
    ∀ task : Task, task.serve w h = (task.result, h, task.requests.filterMap (dispatch h))
  | .finish _ => rfl
  | .ask request reaction rest => by
      unfold Task.serve
      cases called : dispatch h request with
      | none =>
          dsimp only
          rw [Task.serve_busy busy rest]
          simp [Task.requests, Task.result, called]
      | some d =>
          dsimp only
          rw [HostCalls.perform_busy busy reaction, Task.serve_busy busy rest]
          simp [Task.requests, Task.result, called]

end Performing

/-! ## A run with its own event callback -/

/-- The run keeps its event callback and userdata apart from those of the configuration. -/
structure OverrideContract (h : EngineHandle) (onEvent : Callback) (userdata : Nat)
    (done : Performed) : Prop where
  configured : ∀ d ∈ done.log, d.isEvent = false → d.userdata = h.userdata
  overriding : ∀ d ∈ done.log, d.isEvent = true → d.callback = onEvent ∧ d.userdata = userdata
  eventFn : done.handle.eventFn = h.eventFn
  permFn : done.handle.permFn = h.permFn
  consentFn : done.handle.consentFn = h.consentFn
  logFn : done.handle.logFn = h.logFn
  restored : done.handle.userdata = h.userdata

/-- A call that is refused makes no callback and changes nothing. -/
theorem OverrideContract.refused (h : EngineHandle) (onEvent : Callback) (userdata : Nat)
    (status : Status) : OverrideContract h onEvent userdata ⟨status, h, []⟩ where
  configured := by simp
  overriding := by simp
  eventFn := rfl
  permFn := rfl
  consentFn := rfl
  logFn := rfl
  restored := rfl

section Override

variable (h : EngineHandle) (onEvent : Callback) (userdata : Nat)

/-- During a run the other callbacks are the configured ones, with the userdata of the run. -/
theorem dispatch_opened {request : Request} (other : request.isEvent = false) :
    dispatch (h.opened (some onEvent) userdata) request =
      (dispatch h request).map fun d => { d with userdata := userdata } := by
  cases request with
  | event ev => cases other
  | permission tool args =>
      show (if h.engine.gate.any (·.hooked) then _ else none) = _
      unfold dispatch dispatchPermission
      split
      · exact (map_deliver ..).symm
      · rfl
  | log level line =>
      show (if h.engine.logHook then _ else none) = _
      unfold dispatch dispatchLog
      split
      · exact (map_deliver ..).symm
      · rfl

theorem callback_of_dispatch_opened {request : Request} {d : Delivery}
    (event : d.isEvent = true)
    (called : dispatch (h.opened (some onEvent) userdata) request = some d) :
    d.callback = onEvent := by
  rw [(dispatch_spec called).2] at event
  cases request with
  | event ev =>
      simp only [dispatch, dispatchEvent, EngineHandle.opened, setEventCb] at called
      cases called
      rfl
  | permission tool args => cases event
  | log level line => cases event

/-- The callbacks of a run, and the handle after it. -/
theorem perform_run (w : HostWorld) (idle : h.engine.busy = false) (prompt : Bytes) (task : Task) :
    (HostCall.run (some prompt) (some onEvent) userdata task).perform w h =
      ⟨(task.result.map statusOf).getD .fatal,
        if task.result.isSome then (h.opened (some onEvent) userdata).closed (some onEvent) h
        else h.opened (some onEvent) userdata,
        task.requests.filterMap (dispatch (h.opened (some onEvent) userdata))⟩ := by
  have busy : (h.opened (some onEvent) userdata).engine.busy = true := rfl
  simp only [HostCall.perform, reduceCtorEq, if_false, idle, Bool.false_eq_true,
    Task.serve_busy busy]
  cases task.result <;> rfl

/-- The configured callbacks get the configured userdata exactly when the run has the same, or
does not call them. -/
theorem configured_userdata_iff (requests : List Request) :
    (∀ d ∈ requests.filterMap (dispatch (h.opened (some onEvent) userdata)),
        d.isEvent = false → d.userdata = h.userdata) ↔
      userdata = h.userdata ∨
        ∀ request ∈ requests, request.isEvent = false → dispatch h request = none := by
  constructor
  · intro configured
    by_cases same : userdata = h.userdata
    · exact .inl same
    · refine .inr fun request member other => ?_
      -- A delivery would carry the userdata of the run to a configured callback.
      cases called : dispatch h request with
      | none => rfl
      | some d =>
          have delivered := dispatch_opened h onEvent userdata other
          rw [called, Option.map_some] at delivered
          refine absurd (configured _ (List.mem_filterMap.mpr ⟨request, member, delivered⟩) ?_) same
          rw [(dispatch_spec delivered).2, other]
  · intro condition d logged other
    obtain ⟨request, member, called⟩ := List.mem_filterMap.mp logged
    rcases condition with same | silent
    · exact (dispatch_spec called).1.trans same
    · rw [(dispatch_spec called).2] at other
      rw [dispatch_opened h onEvent userdata other, silent request member other] at called
      cases called

/-- **A run with its own event callback keeps to the contract exactly when it is refused, or:
it does not end in an exception, unless it brings the configured callback and userdata, and its
userdata is the configured one, or it asks for no permission and logs nothing that the host has
a callback for.** -/
theorem override_contract_iff (w : HostWorld) (prompt : Option Bytes) (task : Task) :
    OverrideContract h onEvent userdata
        ((HostCall.run prompt (some onEvent) userdata task).perform w h) ↔
      prompt = none ∨ h.engine.busy = true ∨
        ((task.result.isSome ∨ h.eventFn = some onEvent ∧ userdata = h.userdata) ∧
          (userdata = h.userdata ∨
            ∀ request ∈ task.requests, request.isEvent = false → dispatch h request = none)) := by
  cases prompt with
  | none =>
      refine ⟨fun _ => .inl rfl, fun _ => ?_⟩
      simp only [HostCall.perform, if_true]
      exact .refused h onEvent userdata .validation
  | some prompt =>
      cases running : h.engine.busy with
      | true =>
          refine ⟨fun _ => .inr (.inl rfl), fun _ => ?_⟩
          simp only [HostCall.perform, reduceCtorEq, if_false, running, if_true]
          exact .refused h onEvent userdata .busy
      | false =>
          rw [perform_run h onEvent userdata w running, ← configured_userdata_iff h onEvent]
          simp only [reduceCtorEq, false_or, Bool.false_eq_true]
          constructor
          · intro contract
            refine ⟨?_, contract.configured⟩
            cases ended : task.result with
            | some ec => exact .inl rfl
            | none =>
                have eventFn := contract.eventFn
                have restored := contract.restored
                rw [ended] at eventFn restored
                exact .inr ⟨eventFn.symm, restored⟩
          · rintro ⟨ended, configured⟩
            refine ⟨configured, ?_, ?_, ?_, ?_, ?_, ?_⟩
            · intro d logged event
              obtain ⟨request, _, called⟩ := List.mem_filterMap.mp logged
              exact ⟨callback_of_dispatch_opened h onEvent userdata event called,
                (dispatch_spec called).1⟩
            all_goals
              rcases ended with returned | ⟨sameFn, same⟩
              · simp [returned, EngineHandle.closed, EngineHandle.opened]
              · split <;> simp [EngineHandle.closed, EngineHandle.opened, sameFn, same]

end Override

/-- What a task does that the host cancels at its first event: it logs the intent, leaves the loop
before the first round, and reports its checkpoint and its end. -/
def cancelledTask : Task :=
  .ask (.event ⟨.preparing, .none, str "intent", str "classifying", 0, 0⟩) (.cons .cancel .nil)
    (.ask (.log .info (str "msg=\"intent classified\" intent=unknown profile=minimal")) .nil
      (.ask (.event ⟨.preparing, .none, str "checkpoint", str "sess-1700000000", 0, 0⟩) .nil
        (.ask (.event ⟨.done, .none, str "done", str "summary", 0, 0⟩) .nil
          (.finish (some .success)))))

/-- A configured engine whose host logs. -/
def loggingHandle : EngineHandle :=
  (setConfig oneTemplate .fresh
    (some { hostAt (str "/a") (str "prompts") 1 with onLog := some 50 })).2

/-- The log callback of the configuration gets the userdata of the run. -/
theorem log_gets_userdata_of_run :
    loggingHandle.logFn = some 50 ∧ loggingHandle.userdata = 1 ∧
    ((HostCall.run (some (str "hi")) (some 70) 2 cancelledTask).perform oneTemplate
      loggingHandle).log.map (fun d => (d.callback, d.userdata)) =
        [(70, 2), (50, 2), (70, 2), (70, 2)] := by
  exact ⟨by decide +kernel, by decide +kernel, by decide +kernel⟩

end Opencodepp.Abi
