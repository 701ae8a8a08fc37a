import Opencodepp.Agent.Frame
import Opencodepp.Agent.Scripted

/-!
# What blocks a write

A stage of the gate can be made optional: when it fails, the gate goes on to the next one.
The agent does not ask whether a failed result was mandatory, so a write is blocked by every
failing stage (`blocked_iff_fails`), and the flags decide only how many results the gate
returns.  Optional stages are informational exactly as long as none of them fails, or a
mandatory one fails as well (`blocked_by_mandatory_iff`).
-/

set_option autoImplicit false

namespace Opencodepp.Verify

variable {c : Checkers} {runs : Nat} (ctx : Context) {p : EditProposal}

/-- The stage fails on the proposal. -/
def Fails (c : Checkers) (runs : Nat) (p : EditProposal) (stage : Stage) : Prop :=
  (runStage c runs p stage).pass = false

instance (stage : Stage) : Decidable (Fails c runs p stage) :=
  inferInstanceAs (Decidable (_ = _))

/-- The first failing stage is reached, whatever the flags are. -/
theorem exists_failing_of_runStages (stages : List Stage) :
    (∃ r ∈ runStages c runs ctx p stages, r.pass = false) ↔
      ∃ stage ∈ stages, Fails c runs p stage := by
  induction stages with
  | nil => simp [runStages]
  | cons first rest inductionHypothesis =>
      by_cases fails : (runStage c runs p first).pass = false
      · have here : runStage c runs p first ∈ runStages c runs ctx p (first :: rest) := by
          unfold runStages
          dsimp only
          split <;> exact List.mem_cons_self ..
        exact ⟨fun _ => ⟨first, List.mem_cons_self .., fails⟩, fun _ => ⟨_, here, fails⟩⟩
      · have passes : (runStage c runs p first).pass = true := by simpa using fails
        have goesOn : runStages c runs ctx p (first :: rest) =
            runStage c runs p first :: runStages c runs ctx p rest := by
          simp [runStages, passes]
        have notFirst : ¬ Fails c runs p first := fails
        simp only [goesOn, List.exists_mem_cons_iff, inductionHypothesis]
        simp [passes, notFirst]

/-- A run of the gate has a failing result exactly when some stage fails. -/
theorem exists_failing_of_runAll :
    (∃ r ∈ runAll c runs ctx p, r.pass = false) ↔ ∃ stage, Fails c runs p stage := by
  unfold runAll
  rw [exists_failing_of_runStages ctx]
  constructor
  · rintro ⟨stage, -, fails⟩
    exact ⟨stage, fails⟩
  · rintro ⟨stage, fails⟩
    exact ⟨stage, by cases stage <;> simp, fails⟩

/-- A mandatory stage fails on the proposal. -/
def MandatoryFails (c : Checkers) (runs : Nat) (ctx : Context) (p : EditProposal) : Prop :=
  ∃ stage, mandatory ctx stage = true ∧ Fails c runs p stage

/-- An optional stage fails on the proposal. -/
def OptionalFails (c : Checkers) (runs : Nat) (ctx : Context) (p : EditProposal) : Prop :=
  ∃ stage, mandatory ctx stage = false ∧ Fails c runs p stage

theorem fails_iff : (∃ stage, Fails c runs p stage) ↔
    MandatoryFails c runs ctx p ∨ OptionalFails c runs ctx p := by
  constructor
  · rintro ⟨stage, fails⟩
    cases flag : mandatory ctx stage with
    | true => exact .inl ⟨stage, flag, fails⟩
    | false => exact .inr ⟨stage, flag, fails⟩
  · rintro (⟨stage, -, fails⟩ | ⟨stage, -, fails⟩)
    · exact ⟨stage, fails⟩
    · exact ⟨stage, fails⟩

end Opencodepp.Verify

namespace Opencodepp.Agent

open Opencodepp.Core
open Opencodepp.Library
open Opencodepp.Library.Program
open Opencodepp.Library.Trace
open Opencodepp.Provider

variable {P : Provider} {ε : Type} (env : Env)

/-! ## Dispatch -/

/-- An entry other than a dispatch. -/
def NotDispatch : Ev → Prop
  | .permission _ => False
  | _ => True

/-- Nothing is handed to the permission gate between the two states. -/
def Blocked (s s' : Sys P) : Prop := Extends NotDispatch s.log s'.log

/-- What the preparations of a call leave alone. -/
structure Uninvolved (s s' : Sys P) : Prop where
  disk : s'.disk = s.disk
  gateRuns : s'.count.gateRuns = s.count.gateRuns
  log : Extends NotDispatch s.log s'.log

theorem Uninvolved.framing : Framing (Uninvolved (P := P)) where
  refl _ := ⟨rfl, rfl, .refl _ _⟩
  trans first second :=
    ⟨second.disk.trans first.disk, second.gateRuns.trans first.gateRuns,
      first.log.trans second.log⟩

theorem wp_uninvolved_emit {phase : String} {detail : Bytes} {status : Nat}
    {Q : Unit → Sys P → Prop} {E : ε → Sys P → Prop} {s : Sys P}
    (post : ∀ s', Uninvolved s s' → Q () s') : wp (emit env phase detail status) Q E s := by
  cases sink : env.session.hasSink with
  | true =>
      simp only [wp, emit, sink, if_true]
      exact post _ ⟨rfl, rfl, .single trivial s.log⟩
  | false =>
      simp only [wp, emit, sink]
      exact post s (Uninvolved.framing.refl s)

theorem wp_uninvolved_enter {target : AgentState} {phase : String} {detail : Bytes} {status : Nat}
    {Q : Unit → Sys P → Prop} {E : ε → Sys P → Prop} {s : Sys P}
    (post : ∀ s', Uninvolved s s' → Q () s') : wp (enter env target phase detail status) Q E s := by
  unfold enter
  rw [wp_bind, wp_setState]
  refine wp_uninvolved_emit env fun s' uninvolved => post s' ?_
  exact ⟨uninvolved.disk, uninvolved.gateRuns,
    Extends.trans (.single trivial s.log) uninvolved.log⟩

/-- A failure of the gate dispatches nothing. -/
theorem wp_blocked_gateFeedback {fail : Verify.GateResult} {Q : Bytes → Sys P → Prop}
    {E : ε → Sys P → Prop} {s : Sys P} (post : ∀ text s', Blocked s s' → Q text s') :
    wp (gateFeedback env fail) Q E s := by
  unfold gateFeedback
  rw [wp_bind]
  refine wp_uninvolved_emit env fun s₁ uninvolved => ?_
  rw [wp_bind, wp_gets, wp_ite]
  exact ⟨fun _ => post _ _ uninvolved.log, fun _ => post _ _ uninvolved.log⟩

/-- A dispatch is seen in the log, whatever came before and after it. -/
theorem not_blocked {s s' : Sys P} {later early : List Ev} {inv : Tools.Invocation}
    (log : s'.log = later ++ .permission inv :: early) (begun : Extends NotDispatch s.log early) :
    ¬ Blocked s s' := by
  rintro ⟨new, extends_, quiet⟩
  obtain ⟨before, rfl, -⟩ := begun
  rw [log, show later ++ Ev.permission inv :: (before ++ s.log) =
    (later ++ Ev.permission inv :: before) ++ s.log by simp] at extends_
  have same := List.append_cancel_right extends_
  exact quiet (.permission inv) (same ▸ by simp)

/-- An approved write is dispatched. -/
theorem wp_dispatched_applyWrite {reg : Tools.ToolRegistry} {gate : Tools.Gate}
    {call : ToolCallDone} {prop : Verify.EditProposal} {Q : ToolOutcome → Sys P → Prop}
    {E : ε → Sys P → Prop} {s₀ s : Sys P} (begun : Extends NotDispatch s₀.log s.log)
    (post : ∀ outcome s', ¬ Blocked s₀ s' → Q outcome s') :
    wp (applyWrite env reg gate call prop) Q E s := by
  unfold applyWrite
  rw [wp_bind]
  refine wp_uninvolved_enter env fun s₁ uninvolved => ?_
  have early : Extends NotDispatch s₀.log s₁.log := begun.trans uninvolved.log
  rw [wp_bind]
  show wp _ Q E { s₁ with
    disk := (gate.run reg s₁.count.asks call.name (invocationOf call) s₁.cancel s₁.disk).2
    count.asks := s₁.count.asks + 1
    log := executions reg gate (invocationOf call) s₁ ++
      .permission (invocationOf call) :: s₁.log }
  split
  · exact post _ _ (not_blocked rfl early)
  · rw [wp_bind, wp_onlyIf]
    refine ⟨fun _ => ?_, fun _ => post _ _ (not_blocked rfl early)⟩
    unfold writeRepoRule
    rw [wp_onlyIf]
    refine ⟨fun _ => post _ _ ?_, fun _ => post _ _ (not_blocked rfl early)⟩
    exact not_blocked (show _ = (.repoRule call.name :: executions reg gate (invocationOf call) s₁) ++
      _ from rfl) early
  · exact post _ _ (not_blocked rfl early)

/-- **Every failing stage blocks.**  A write with a proposal is handed to the permission gate
exactly when no stage fails on it, whether the stage is mandatory or not. -/
theorem blocked_iff_fails {call : ToolCallDone} {s : Sys P} {reg : Tools.ToolRegistry}
    {gate : Tools.Gate} {checkers : Verify.Checkers} {tool : Tools.Tool}
    {prop : Verify.EditProposal} (tools : env.opts.tools = some reg)
    (permission : env.opts.permission = some gate) (verify : env.opts.verify = some checkers)
    (found : reg.find call.name = some tool) (writes : tool.spec.category = .write)
    (built : (buildProposal env.opts.verifyCtx.workspaceRoot call s.disk).1 = .ok prop) :
    Blocked s (runTool env call s : Except ε ToolOutcome × Sys P).2 ↔
      ∃ stage, Verify.Fails checkers s.count.gateRuns prop stage := by
  suffices decided : wp (runTool env call) (fun _ s' => Blocked s s' ↔
      ∃ stage, Verify.Fails checkers s.count.gateRuns prop stage) (fun _ _ => False) s by
    unfold wp at decided
    rcases run : (runTool env call s : Except ε ToolOutcome × Sys P) with ⟨_ | _, s'⟩ <;>
      rw [run] at decided
    · exact decided.elim
    · exact decided
  unfold runTool
  rw [wp_bind, wp_record]
  simp only [tools, permission, verify, found, writes, if_true]
  unfold runWriteTool
  rw [wp_bind]
  refine wp_uninvolved_enter env fun s₁ uninvolved => ?_
  have early : Extends NotDispatch s.log s₁.log :=
    Extends.trans (.single trivial s.log) uninvolved.log
  have sameDisk : s₁.disk = s.disk := uninvolved.disk
  have sameRuns : s₁.count.gateRuns = s.count.gateRuns := uninvolved.gateRuns
  rw [wp_bind]
  show wp _ _ _ { s₁ with disk := (buildProposal env.opts.verifyCtx.workspaceRoot call s₁.disk).2 }
  rw [sameDisk, built]
  dsimp only
  rw [wp_bind]
  show wp _ _ _ { s₁ with
    disk := (buildProposal env.opts.verifyCtx.workspaceRoot call s.disk).2
    count.gateRuns := s₁.count.gateRuns + 1
    log := .gate prop (Verify.runAll checkers s₁.count.gateRuns env.opts.verifyCtx prop) ::
      s₁.log }
  rw [sameRuns, ← Verify.exists_failing_of_runAll env.opts.verifyCtx]
  generalize Verify.runAll checkers s.count.gateRuns env.opts.verifyCtx prop = results
  have gated : Extends NotDispatch s.log (.gate prop results :: s₁.log) := .cons trivial early
  split
  · next fail first =>
      rw [wp_bind]
      refine wp_blocked_gateFeedback env fun text s' blocked => ?_
      have failing : fail.pass = false := by simpa using List.find?_some first
      exact ⟨fun _ => ⟨fail, List.mem_of_find?_eq_some first, failing⟩,
        fun _ => gated.trans blocked⟩
  · next passing =>
      refine wp_dispatched_applyWrite env gated fun outcome s' dispatched => ?_
      refine ⟨fun blocked => absurd blocked dispatched, ?_⟩
      rintro ⟨r, member, fails⟩
      have passes := List.find?_eq_none.mp passing r member
      simp [fails] at passes

/-- **Only mandatory stages block, exactly when a mandatory stage fails or no optional one
does.** -/
theorem blocked_by_mandatory_iff {call : ToolCallDone} {s : Sys P} {reg : Tools.ToolRegistry}
    {gate : Tools.Gate} {checkers : Verify.Checkers} {tool : Tools.Tool}
    {prop : Verify.EditProposal} (tools : env.opts.tools = some reg)
    (permission : env.opts.permission = some gate) (verify : env.opts.verify = some checkers)
    (found : reg.find call.name = some tool) (writes : tool.spec.category = .write)
    (built : (buildProposal env.opts.verifyCtx.workspaceRoot call s.disk).1 = .ok prop) :
    (Blocked s (runTool env call s : Except ε ToolOutcome × Sys P).2 ↔
      Verify.MandatoryFails checkers s.count.gateRuns env.opts.verifyCtx prop) ↔
    (Verify.MandatoryFails checkers s.count.gateRuns env.opts.verifyCtx prop ∨
      ¬ Verify.OptionalFails checkers s.count.gateRuns env.opts.verifyCtx prop) := by
  rw [blocked_iff_fails env tools permission verify found writes built,
    Verify.fails_iff env.opts.verifyCtx]
  tauto

/-! ## An optional diff stage -/

/-- A gate whose diff stage objects to everything. -/
def objectingCheckers : Verify.Checkers := { lenientCheckers with checkDiff := fun _ => [str "no"] }

/-- The scripted environment with that gate, the diff stage being mandatory or not. -/
def objectingEnv (mandatoryDiff : Bool) : Env :=
  { scriptedEnv writeTools [] [] with
    opts :=
      { (scriptedEnv writeTools [] []).opts with
        verify := some objectingCheckers
        verifyCtx := ⟨str "/w", true, true, true, mandatoryDiff⟩ } }

/-- A call of file.write. -/
def writeCall : ToolCallDone :=
  ⟨str "c1", str "file.write", Util.toJson (writeArgs "a" "x")⟩

/-- Its proposal in the scripted workspace. -/
def writeProposal : Verify.EditProposal :=
  ⟨str "file.write", Util.toJson (writeArgs "a" "x"), str "a", [], str "x", []⟩

theorem objecting_fails : Verify.Fails objectingCheckers 0 writeProposal .diff := by decide

theorem objecting_fails_only {stage : Verify.Stage}
    (fails : Verify.Fails objectingCheckers 0 writeProposal stage) : stage = .diff := by
  revert fails
  cases stage <;> decide

theorem writeProposal_built :
    (buildProposal (str "/w") writeCall scriptedDisk).1 = .ok writeProposal := by
  decide +kernel

/-- With the flag set, the stage blocks as it should. -/
theorem blocked_by_mandatory_diff :
    Verify.MandatoryFails objectingCheckers 0 (objectingEnv true).opts.verifyCtx writeProposal ∧
    Blocked scriptedStart
      (runTool (objectingEnv true) writeCall scriptedStart :
        Except Empty ToolOutcome × Sys factory).2 := by
  have fails : Verify.MandatoryFails objectingCheckers 0 (objectingEnv true).opts.verifyCtx
      writeProposal := ⟨.diff, rfl, objecting_fails⟩
  refine ⟨fails, ?_⟩
  have decision := blocked_by_mandatory_iff (ε := Empty) (objectingEnv true) (s := scriptedStart) rfl
    rfl rfl writeTools_find rfl writeProposal_built
  exact (decision.mpr (.inl fails)).mpr fails

/-- Without it the stage blocks all the same. -/
theorem blocked_by_optional_diff :
    Blocked scriptedStart
      (runTool (objectingEnv false) writeCall scriptedStart :
        Except Empty ToolOutcome × Sys factory).2 ∧
    ¬ Verify.MandatoryFails objectingCheckers 0 (objectingEnv false).opts.verifyCtx
      writeProposal := by
  refine ⟨?_, ?_⟩
  · exact (blocked_iff_fails (objectingEnv false) (s := scriptedStart) rfl rfl rfl writeTools_find
      rfl writeProposal_built).mpr ⟨.diff, objecting_fails⟩
  · rintro ⟨stage, isMandatory, fails⟩
    rw [objecting_fails_only fails] at isMandatory
    cases isMandatory

end Opencodepp.Agent
