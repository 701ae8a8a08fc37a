import Opencodepp.Agent.Session
import Opencodepp.Tools.Defaults

/-!
# The engine

One engine owns the prompts, the tools, the permission gate and the context of the
verification gate, all built from one workspace, and hands them to the agent loop of every
task.  The verification gate and file.write therefore work on the same files
(`configure_wired`).
-/

set_option autoImplicit false

namespace Opencodepp.App

open Opencodepp.Agent
open Opencodepp.Core
open Opencodepp.Library

/-- The services of a configured engine. -/
structure Engine where
  workspace : Bytes
  prompts : Prompt.PromptRegistry
  tools : Tools.ToolRegistry
  gate : Tools.Gate
  vctx : Verify.Context

/-- The context of the verification gate over a workspace: every stage is mandatory. -/
def verifyContext (workspace : Bytes) : Verify.Context := ⟨workspace, true, true, true, true⟩

/-- Build the services.  `templates` is what loading the prompt templates gave; the engine
has a store and no symbol index. -/
def configure (runs : Tools.ToolRuns) (templates : Option Prompt.PromptRegistry)
    (workspace : Bytes) (policy : Tools.Policy) (callback : Option (Nat → Bytes → Bytes → Bool)) :
    Except Failure Engine :=
  match templates with
  | none => .error (.of .eInvalidCfg)
  | some prompts =>
      match Tools.registerDefaults runs ⟨workspace, false, true, true⟩ .empty with
      | .error e => .error e
      | .ok tools => .ok ⟨workspace, prompts, tools, ⟨policy, [], callback⟩, verifyContext workspace⟩

/-- The options the engine runs a task with. -/
def Engine.loopOptions (engine : Engine) (checkers : Verify.Checkers) (maxRetries : UInt32) :
    LoopOptions where
  hasLoop := true
  prompt := some engine.prompts
  tools := some engine.tools
  permission := some engine.gate
  verify := some checkers
  verifyCtx := engine.vctx
  retry := ⟨maxRetries, 300, 3 / 10, 30000⟩

/-- The verification gate and file.write work on the same files. -/
def Wired (opts : LoopOptions) : Prop :=
  ∀ reg, opts.tools = some reg →
    reg.find Tools.fileWriteId = some (Tools.fileWriteTool opts.verifyCtx.workspaceRoot)

/-- No registered tool that writes passes for read-only. -/
def Truthful (opts : LoopOptions) : Prop := ∀ reg, opts.tools = some reg → reg.Truthful

/-- **A configured engine is wired**, and its registry is truthful. -/
theorem configure_wired {runs : Tools.ToolRuns} {templates : Option Prompt.PromptRegistry}
    {workspace : Bytes} {policy : Tools.Policy}
    {callback : Option (Nat → Bytes → Bytes → Bool)} {engine : Engine}
    (configured : configure runs templates workspace policy callback = .ok engine)
    (checkers : Verify.Checkers) (maxRetries : UInt32) :
    Wired (engine.loopOptions checkers maxRetries) ∧
      Truthful (engine.loopOptions checkers maxRetries) := by
  unfold configure at configured
  split at configured
  · cases configured
  · split at configured
    · cases configured
    · next tools registered =>
        cases configured
        refine ⟨fun reg same => ?_, fun reg same => ?_⟩
        · cases same
          exact Tools.find_fileWrite_of_registerDefaults runs registered rfl
        · cases same
          exact Tools.registerDefaults_truthful runs registered

/-- An engine is configured whenever the templates load. -/
theorem configure_ok (runs : Tools.ToolRuns) (prompts : Prompt.PromptRegistry) (workspace : Bytes)
    (policy : Tools.Policy) (callback : Option (Nat → Bytes → Bytes → Bool)) :
    ∃ engine, configure runs (some prompts) workspace policy callback = .ok engine := by
  obtain ⟨reg, registered, _⟩ :=
    Tools.registerDefaults_ok runs ⟨workspace, false, true, true⟩
  exact ⟨_, by simp only [configure, registered]; rfl⟩

end Opencodepp.App
