import Opencodepp.Abi.HostConfig
import Opencodepp.App.Assembly

/-!
# The engine handle

What a host holds: an engine and the callbacks it has registered, with one userdata for all of
them.  A new configuration is checked for its version and its file first, and then written into
the handle: the callbacks, the hooks, and the engine piece by piece.  The templates are looked
for only then, so a configuration whose templates do not load is refused after most of it has
been applied.  A refused call leaves the handle as it was exactly when it is refused by the first
checks, or when it asks for what is in force already (`setConfig_failure_iff`).
-/

set_option autoImplicit false

namespace Opencodepp.Abi

open Opencodepp.App
open Opencodepp.Core
open Opencodepp.Library
open Opencodepp.Prompt

/-! ## Statuses -/

/-- What every entry point returns. -/
inductive Status
  | ok
  | network
  | auth
  | validation
  | busy
  | cancelled
  | fatal
  | noNetwork
  deriving Repr, DecidableEq

def toAbiStatus : Err → Status
  | .ok => .ok
  | .eNetConnect | .eNetResolve | .eNetTls | .eNetHttp | .eNetTimeout | .eNetOverflow => .network
  | .eNetOffline => .noNetwork
  | .eAuth | .eModelUnsup => .auth
  | .eInvalidCfg | .eMissingCfg | .eToolReject | .eToolNotfound | .eProtoParse | .eNotImpl =>
      .validation
  | .eBusy => .busy
  | .eCancelled | .eBudget | .eAborted => .cancelled
  | .eInternal | .eOom => .fatal
  | .eOverflow => .validation
  | .eVerifyFail | .eRateLimit | .eProviderErr => .validation

def statusOf (ec : ErrorCode) : Status := if ec.ok then .ok else toAbiStatus ec.code

/-- No failure passes for success. -/
theorem statusOf_ok_iff (ec : ErrorCode) : statusOf ec = .ok ↔ ec.ok = true := by
  obtain ⟨code, detail⟩ := ec
  cases code <;> simp [statusOf, ErrorCode.ok, toAbiStatus]

/-! ## The handle -/

@[ext] structure EngineHandle where
  engine : EngineState
  eventFn : Option Callback
  permFn : Option Callback
  consentFn : Option Callback
  logFn : Option Callback
  userdata : Nat
  taskSeq : UInt32

/-- A handle without a configuration. -/
def EngineHandle.fresh : EngineHandle := ⟨.fresh, none, none, none, none, 0, 0⟩

/-- What the calls of a host find outside: what the tools do, the directories with templates, and
the configuration files. -/
structure HostWorld where
  runs : Tools.ToolRuns
  dirs : TemplateDirs
  configFiles : Bytes → Except Failure Config

def policyFrom : Nat → Tools.Policy
  | 0 => .deny
  | 1 => .ask
  | 2 => .allow
  | 3 => .allowReadonly
  | _ => .deny

def kConfigVersion : UInt32 := 1

/-- The settings a host's record starts from. -/
def HostWorld.fileConfig (w : HostWorld) (c : HostConfig) : Except Failure Config :=
  match c.configPath with
  | none => .ok {}
  | some path => w.configFiles path

def applyConfig (w : HostWorld) (h : EngineHandle) (c : HostConfig) : Status × EngineHandle :=
  if c.version ≠ kConfigVersion then (.validation, h)
  else
    match w.fileConfig c with
    | .error failure => (statusOf failure.ec, h)
    | .ok file =>
        let (ec, engine) := (setLogSink (setPermissionCb h.engine)).configure w.runs w.dirs
          (overlaid c file) (c.workspace.getD (str ".")) (c.promptDir.getD [])
          (policyFrom c.toolPolicy)
        (statusOf ec,
          ⟨engine, c.onEvent, c.onPermission, c.onConsent, c.onLog, c.userdata, h.taskSeq⟩)

def setConfig (w : HostWorld) (h : EngineHandle) : Option HostConfig → Status × EngineHandle
  | none => (.validation, h)
  | some c => if h.engine.busy then (.busy, h) else applyConfig w h c

/-! ## A configuration that is refused -/

/-- A call that the checks before the first change refuse. -/
def Refused (w : HostWorld) (h : EngineHandle) : Option HostConfig → Prop
  | none => True
  | some c => h.engine.busy = true ∨ c.version ≠ kConfigVersion ∨
      ∃ failure, w.fileConfig c = .error failure

/-- The templates that can be read where a configuration points to. -/
def readable (w : HostWorld) (c : HostConfig) : List PromptRef :=
  (candidates (c.promptDir.getD [])).flatMap (compiledFrom w.dirs)

/-- What a configuration asks for before the templates fail is in force already. -/
structure InForce (w : HostWorld) (h : EngineHandle) (c : HostConfig) (file : Config) : Prop where
  cfg : h.engine.cfg = overlaid c file
  workspace : h.engine.workspace = c.workspace.getD (str ".")
  eventFn : h.eventFn = c.onEvent
  permFn : h.permFn = c.onPermission
  consentFn : h.consentFn = c.onConsent
  logFn : h.logFn = c.onLog
  userdata : h.userdata = c.userdata
  prompts : ∀ ref ∈ readable w c,
    h.engine.prompts.find ref.id = Keyed.lastOf (·.id) (readable w c) ref.id
  permHook : h.engine.permHook = true
  logHook : h.engine.logHook = true
  gate : ∀ gate, h.engine.gate = some gate → gate.hooked = true

/-- The handle after a configuration whose templates do not load. -/
def halfApplied (w : HostWorld) (h : EngineHandle) (c : HostConfig) (file : Config) :
    EngineHandle :=
  ⟨{ setLogSink (setPermissionCb h.engine) with
      cfg := overlaid c file
      workspace := c.workspace.getD (str ".")
      prompts := Keyed.putAll (·.id) (readable w c) h.engine.prompts },
    c.onEvent, c.onPermission, c.onConsent, c.onLog, c.userdata, h.taskSeq⟩

/-- **A configuration that gets past the checks and fails is half applied.** -/
theorem applyConfig_failed {w : HostWorld} {h : EngineHandle} {c : HostConfig} {file : Config}
    (current : c.version = kConfigVersion) (read : w.fileConfig c = .ok file)
    (failed : (applyConfig w h c).1 ≠ .ok) : (applyConfig w h c).2 = halfApplied w h c file := by
  unfold applyConfig at failed ⊢
  rw [if_neg (not_not.mpr current), read] at failed ⊢
  rw [Ne, statusOf_ok_iff, Bool.not_eq_true] at failed
  dsimp only
  rw [configure_failed failed]
  rfl

theorem hook_gate_eq_iff (gate : Option PermissionGate) :
    gate.map (fun g => { g with hooked := true }) = gate ↔
      ∀ g, gate = some g → g.hooked = true := by
  cases gate with
  | none => simp
  | some g =>
      obtain ⟨policy, hooked⟩ := g
      constructor
      · intro same g' given
        cases given
        cases hooked with
        | true => rfl
        | false => cases same
      · intro set
        rw [show hooked = true from set _ rfl]
        rfl

/-- Half of a configuration changes nothing exactly when that half is in force. -/
theorem halfApplied_eq_iff (w : HostWorld) (h : EngineHandle) (c : HostConfig) (file : Config) :
    halfApplied w h c file = h ↔ InForce w h c file := by
  constructor
  · intro same
    rw [EngineHandle.ext_iff, EngineState.ext_iff] at same
    obtain ⟨⟨cfg, workspace, prompts, _, gate, _, permHook, logHook, _, _⟩, eventFn, permFn,
      consentFn, logFn, userdata, _⟩ := same
    exact ⟨cfg.symm, workspace.symm, eventFn.symm, permFn.symm, consentFn.symm, logFn.symm,
      userdata.symm, (Keyed.putAll_eq_self_iff _ _ _).mp prompts, permHook.symm, logHook.symm,
      (hook_gate_eq_iff _).mp gate⟩
  · intro force
    rw [EngineHandle.ext_iff, EngineState.ext_iff]
    exact ⟨⟨force.cfg.symm, force.workspace.symm,
      (Keyed.putAll_eq_self_iff _ _ _).mpr force.prompts, rfl,
      (hook_gate_eq_iff _).mpr force.gate, rfl, force.permHook.symm, force.logHook.symm, rfl, rfl⟩,
      force.eventFn.symm, force.permFn.symm, force.consentFn.symm, force.logFn.symm,
      force.userdata.symm, rfl⟩

/-- What the first checks refuse changes nothing. -/
theorem setConfig_refused {w : HostWorld} {h : EngineHandle} {c : Option HostConfig}
    (refused : Refused w h c) : (setConfig w h c).2 = h := by
  cases c with
  | none => rfl
  | some c =>
      have decided : setConfig w h (some c) =
          if h.engine.busy then (.busy, h) else applyConfig w h c := rfl
      rw [decided]
      by_cases busy : h.engine.busy = true
      · rw [if_pos busy]
      · rw [if_neg busy]
        rcases refused with busy' | outdated | ⟨failure, unread⟩
        · exact absurd busy' busy
        · rw [applyConfig, if_pos outdated]
        · rw [applyConfig, unread]
          split <;> rfl

/-- **A call that is not OK leaves the handle as it was exactly when it is refused by the checks
before the first change, or what it would change is in force already.** -/
theorem setConfig_failure_iff {w : HostWorld} {h : EngineHandle} {c : Option HostConfig}
    (failed : (setConfig w h c).1 ≠ .ok) :
    (setConfig w h c).2 = h ↔
      Refused w h c ∨
        ∃ given file, c = some given ∧ w.fileConfig given = .ok file ∧ InForce w h given file := by
  by_cases refused : Refused w h c
  · exact ⟨fun _ => .inl refused, fun _ => setConfig_refused refused⟩
  · cases c with
    | none => exact absurd trivial refused
    | some c =>
        simp only [Refused, not_or, not_not, not_exists] at refused
        obtain ⟨idle, current, noFailure⟩ := refused
        obtain ⟨file, read⟩ : ∃ file, w.fileConfig c = .ok file := by
          cases given : w.fileConfig c with
          | error failure => exact absurd given (noFailure failure)
          | ok file => exact ⟨file, rfl⟩
        have applied : setConfig w h (some c) = applyConfig w h c := if_neg idle
        rw [applied] at failed ⊢
        rw [applyConfig_failed current read failed, halfApplied_eq_iff]
        constructor
        · exact fun force => .inr ⟨c, file, rfl, read, force⟩
        · rintro (refused | ⟨given, file', same, read', force⟩)
          · simp [Refused, idle, current, read] at refused
          · cases same
            rw [read] at read'
            cases read'
            exact force

/-- One directory with one template, and no configuration files. -/
def oneTemplate : HostWorld where
  runs := fun _ _ _ _ _ disk => (.blank, disk)
  dirs := fun dir =>
    if dir = str "prompts" then some [⟨str "SYSTEM_BASE", some (str "Be brief.")⟩] else none
  configFiles := fun _ => .error (.of .eInvalidCfg)

/-- A record with a workspace, a directory of templates and a userdata. -/
def hostAt (workspace promptDir : Bytes) (userdata : Nat) : HostConfig :=
  { hostAgent none with
    workspace := some workspace, promptDir := some promptDir, userdata := userdata }

/-- An engine that works in one directory. -/
def configuredHandle : EngineHandle :=
  (setConfig oneTemplate .fresh (some (hostAt (str "/a") (str "prompts") 1))).2

/-- An engine whose only configuration has failed. -/
def halfConfigured : EngineHandle :=
  (setConfig oneTemplate .fresh (some (hostAt (str "/b") (str "missing") 2))).2

/-- The same configuration fails a second time and changes nothing more. -/
theorem setConfig_failure_repeated :
    (setConfig oneTemplate halfConfigured (some (hostAt (str "/b") (str "missing") 2))).1 ≠ .ok ∧
    (setConfig oneTemplate halfConfigured (some (hostAt (str "/b") (str "missing") 2))).2 =
      halfConfigured := by
  have failed : (setConfig oneTemplate halfConfigured
      (some (hostAt (str "/b") (str "missing") 2))).1 ≠ .ok := by decide +kernel
  refine ⟨failed, (setConfig_failure_iff failed).mpr (.inr ⟨_, {}, rfl, rfl, ?_⟩)⟩
  exact ⟨rfl, rfl, rfl, rfl, rfl, rfl, rfl, by decide, rfl, rfl, by decide⟩

/-- A configuration that is refused for its missing templates moves the workspace and the
userdata, and the tools stay in the old workspace. -/
theorem refused_config_moves_workspace :
    (setConfig oneTemplate .fresh (some (hostAt (str "/a") (str "prompts") 1))).1 = .ok ∧
    (setConfig oneTemplate configuredHandle
      (some (hostAt (str "/b") (str "missing") 2))).1 = .validation ∧
    configuredHandle.engine.workspace = str "/a" ∧ configuredHandle.userdata = 1 ∧
    (setConfig oneTemplate configuredHandle
      (some (hostAt (str "/b") (str "missing") 2))).2.engine.workspace = str "/b" ∧
    (setConfig oneTemplate configuredHandle
      (some (hostAt (str "/b") (str "missing") 2))).2.userdata = 2 ∧
    (setConfig oneTemplate configuredHandle
      (some (hostAt (str "/b") (str "missing") 2))).2.engine.tools =
        configuredHandle.engine.tools := by
  exact ⟨by decide +kernel, by decide +kernel, by decide +kernel, by decide +kernel,
    by decide +kernel, by decide +kernel, rfl⟩

end Opencodepp.Abi
