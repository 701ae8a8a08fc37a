import Opencodepp.App.Engine
import Opencodepp.Config.Schema
import Opencodepp.Prompt.Registry

/-!
# Assembling an engine

The engine as it is between calls, with the services it has been configured with so far.  A
configuration is written into it piece by piece: the settings and the workspace first, then the
templates as they load, then the tools and the gates.  When the templates do not load, what was
written before stays (`configure_failed`); the tools and gates stay the old ones.  When they do,
the services are those of `App.configure` (`configure_services`).
-/

set_option autoImplicit false

namespace Opencodepp.App

open Opencodepp.Core
open Opencodepp.Library
open Opencodepp.Prompt

/-- The permission gate of an engine: its policy, and whether the host's hook is installed. -/
structure PermissionGate where
  policy : Tools.Policy
  hooked : Bool
  deriving Repr, DecidableEq

/-- An engine between calls.  The hooks are those of the layer above. -/
@[ext] structure EngineState where
  cfg : Config
  workspace : Bytes
  prompts : PromptRegistry
  tools : Option Tools.ToolRegistry
  gate : Option PermissionGate
  vctx : Verify.Context
  permHook : Bool
  logHook : Bool
  eventHook : Bool
  busy : Bool

/-- A new engine. -/
def EngineState.fresh : EngineState :=
  ⟨{}, [], [], none, none, verifyContext [], false, false, false, false⟩

def setPermissionCb (e : EngineState) : EngineState :=
  { e with permHook := true, gate := e.gate.map fun g => { g with hooked := true } }

def setLogSink (e : EngineState) : EngineState := { e with logHook := true }

def setEventCb (e : EngineState) : EngineState := { e with eventHook := true }

/-! ## Templates -/

/-- Where templates are looked for when no directory is configured. -/
def kTemplateDirs : List Bytes :=
  [str "src/prompt/templates", str "../src/prompt/templates",
    str "opencodepp/src/prompt/templates"]

/-- Load the first directory that loads. -/
def loadFirst (dirs : TemplateDirs) : List Bytes → PromptRegistry → Bool × PromptRegistry
  | [], reg => (false, reg)
  | dir :: rest, reg =>
      match loadTemplates dirs dir reg with
      | (.ok _, reg) => (true, reg)
      | (.error _, reg) => loadFirst dirs rest reg

/-- The directories tried for a configured one, which may be empty. -/
def candidates (promptDir : Bytes) : List Bytes :=
  if promptDir = [] then kTemplateDirs else [promptDir]

def loadPrompts (dirs : TemplateDirs) (promptDir : Bytes) (reg : PromptRegistry) :
    Bool × PromptRegistry :=
  loadFirst dirs (candidates promptDir) reg

/-- A directory loads when it is there and all its template files can be opened. -/
def Loads (dirs : TemplateDirs) (dir : Bytes) : Prop :=
  ∃ files, dirs dir = some files ∧ ∀ file ∈ files, file.text.isSome

theorem loadFiles_ok_iff (files : List TemplateFile) (reg : PromptRegistry) :
    (∃ u, (loadFiles files reg).1 = .ok u) ↔ ∀ file ∈ files, file.text.isSome := by
  induction files generalizing reg with
  | nil => simp [loadFiles]
  | cons file rest inductionHypothesis =>
      obtain ⟨id, text⟩ := file
      cases text with
      | none => simp [loadFiles, compilePromptFile]
      | some text => simpa [loadFiles, compilePromptFile] using inductionHypothesis _

theorem loadTemplates_ok_iff (dirs : TemplateDirs) (dir : Bytes) (reg : PromptRegistry) :
    (∃ u, (loadTemplates dirs dir reg).1 = .ok u) ↔ Loads dirs dir := by
  unfold loadTemplates Loads
  cases dirs dir with
  | none => simp
  | some files => simpa using loadFiles_ok_iff files reg

/-- The templates load exactly when one of the directories does. -/
theorem loadFirst_loaded_iff (dirs : TemplateDirs) (tried : List Bytes) (reg : PromptRegistry) :
    (loadFirst dirs tried reg).1 = true ↔ ∃ dir ∈ tried, Loads dirs dir := by
  induction tried generalizing reg with
  | nil => simp [loadFirst]
  | cons dir rest inductionHypothesis =>
      have decided := loadTemplates_ok_iff dirs dir reg
      unfold loadFirst
      split
      · next u reg' loaded =>
          rw [loaded] at decided
          simp [decided.mp ⟨u, rfl⟩]
      · next e reg' failed =>
          rw [failed] at decided
          have not : ¬ Loads dirs dir := fun loads => by
            obtain ⟨u, ok⟩ := decided.mpr loads
            cases ok
          simp [inductionHypothesis reg', not]

/-- A load of the templates that fails leaves in the registry what every directory gave. -/
theorem loadFirst_failed {dirs : TemplateDirs} {tried : List Bytes} {reg : PromptRegistry}
    (failed : (loadFirst dirs tried reg).1 = false) :
    (loadFirst dirs tried reg).2 =
      Keyed.putAll (·.id) (tried.flatMap (compiledFrom dirs)) reg := by
  induction tried generalizing reg with
  | nil => rfl
  | cons dir rest inductionHypothesis =>
      have put := loadTemplates_registry dirs dir reg
      unfold loadFirst at failed ⊢
      split at failed
      · cases failed
      · next e reg' step =>
          rw [step] at put
          rw [List.flatMap_cons, Keyed.putAll_append, ← put]
          exact inductionHypothesis failed

/-! ## Configuration -/

section Configuration

variable (runs : Tools.ToolRuns) (dirs : TemplateDirs)

/-- Add tools up to the first that is refused. -/
def addUpTo : List Tools.Tool → Tools.ToolRegistry → Tools.ToolRegistry
  | [], reg => reg
  | tool :: rest, reg =>
      match reg.add tool with
      | .error _ => reg
      | .ok reg => addUpTo rest reg

/-- (Re)build the services of an engine. -/
def EngineState.configure (e : EngineState) (cfg : Config) (workspace promptDir : Bytes)
    (policy : Tools.Policy) : ErrorCode × EngineState :=
  match loadPrompts dirs promptDir e.prompts with
  | (false, prompts) =>
      ((Failure.of .eInvalidCfg).ec,
        { e with cfg := cfg, workspace := workspace, prompts := prompts })
  | (true, prompts) =>
      let options : Tools.RegistryOptions := ⟨workspace, false, true, true⟩
      match Tools.registerDefaults runs options .empty with
      | .error failure =>
          (failure.ec,
            { e with
              cfg := cfg, workspace := workspace, prompts := prompts
              tools := some (addUpTo (Tools.defaultTools runs options) .empty) })
      | .ok tools =>
          (.success,
            { e with
              cfg := cfg, workspace := workspace, prompts := prompts, tools := some tools
              gate := some ⟨policy, e.permHook⟩
              vctx := verifyContext workspace })

variable {runs dirs}

/-- A configuration fails exactly when no templates load. -/
theorem configure_ok_iff (e : EngineState) (cfg : Config) (workspace promptDir : Bytes)
    (policy : Tools.Policy) :
    (e.configure runs dirs cfg workspace promptDir policy).1.ok = true ↔
      ∃ dir ∈ candidates promptDir, Loads dirs dir := by
  rw [← loadFirst_loaded_iff dirs (candidates promptDir) e.prompts]
  unfold EngineState.configure loadPrompts
  obtain ⟨reg, registered, _⟩ := Tools.registerDefaults_ok runs ⟨workspace, false, true, true⟩
  split
  · next prompts failed => simp [failed, ErrorCode.ok]
  · next prompts loaded => simp [loaded, registered, ErrorCode.ok, ErrorCode.success]

/-- What a failed configuration leaves: the new settings over the old services. -/
theorem configure_failed {e : EngineState} {cfg : Config} {workspace promptDir : Bytes}
    {policy : Tools.Policy}
    (failed : (e.configure runs dirs cfg workspace promptDir policy).1.ok = false) :
    (e.configure runs dirs cfg workspace promptDir policy).2 =
      { e with
        cfg := cfg, workspace := workspace
        prompts := Keyed.putAll (·.id) ((candidates promptDir).flatMap (compiledFrom dirs))
          e.prompts } := by
  have unloaded : (loadPrompts dirs promptDir e.prompts).1 = false := by
    refine Bool.eq_false_iff.mpr fun loaded => ?_
    rw [loadPrompts, loadFirst_loaded_iff] at loaded
    rw [(configure_ok_iff e cfg workspace promptDir policy).mpr loaded] at failed
    cases failed
  have left := loadFirst_failed unloaded
  unfold EngineState.configure
  split
  · next prompts given =>
      rw [← left]
      unfold loadPrompts at given
      rw [given]
  · next prompts given =>
      rw [given] at unloaded
      cases unloaded

/-- The services the tasks of an engine get; `answers` is what the host says when it is asked. -/
def EngineState.services (e : EngineState) (answers : Nat → Bytes → Bytes → Bool) :
    Option Engine :=
  match e.tools, e.gate with
  | some tools, some gate =>
      some ⟨e.workspace, e.prompts, tools,
        ⟨gate.policy, [], if gate.hooked then some answers else none⟩, e.vctx⟩
  | _, _ => none

/-- **A configuration that succeeds gives the services of its workspace and policy.** -/
theorem configure_services {e e' : EngineState} {cfg : Config} {workspace promptDir : Bytes}
    {policy : Tools.Policy} (hooked : e.permHook = true)
    (configured : e.configure runs dirs cfg workspace promptDir policy = (.success, e'))
    (answers : Nat → Bytes → Bytes → Bool) :
    ∃ engine, e'.services answers = some engine ∧
      configure runs (some e'.prompts) workspace policy (some answers) = .ok engine := by
  obtain ⟨reg, registered, _⟩ := Tools.registerDefaults_ok runs ⟨workspace, false, true, true⟩
  unfold EngineState.configure at configured
  split at configured
  · cases configured
  · next prompts _ =>
      simp only [registered, Prod.mk.injEq, true_and] at configured
      subst configured
      refine ⟨⟨workspace, prompts, reg, ⟨policy, [], some answers⟩, verifyContext workspace⟩,
        ?_, ?_⟩
      · simp [EngineState.services, hooked]
      · simp [configure, registered]

end Configuration

end Opencodepp.App
