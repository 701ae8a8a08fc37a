import Opencodepp.Agent.Lifecycle

/-!
# What is handed to the permission gate

Every dispatch of a drive stands for a call of the latest reply, names a registered tool,
and, when that tool writes, comes right after a run of the verification gate on the proposal
of the same call in which no stage failed.  Every execution follows a dispatch that the
permission gate has allowed.

`DispatchFact` says this of one entry of the log and its past; `drive_disciplined` says that
it holds at every place of the log of every drive.
-/

set_option autoImplicit false

namespace Opencodepp.Agent

open Opencodepp.Core
open Opencodepp.Library
open Opencodepp.Library.Program
open Opencodepp.Library.Trace
open Opencodepp.Msg
open Opencodepp.Provider

variable {P : Provider} {ε : Type} (env : Env)

/-! ## Dispatches and their past -/

/-- The latest reply. -/
def latestReply (log : List Ev) : Option Accum :=
  log.findSome? fun
    | .reply _ acc => some acc
    | _ => none

/-- The proposal of a call has passed the gate since the call began; besides that only
transitions and reports have happened. -/
def Vetted (call : ToolCallDone) (prop : Verify.EditProposal) (log : List Ev) : Prop :=
  (∃ disk, (buildProposal env.opts.verifyCtx.workspaceRoot call disk).1 = .ok prop) ∧
  ∃ checkers runs earlier early, env.opts.verify = some checkers ∧
    Extends MoveEv (.toolBegin call :: earlier) early ∧
    Extends MoveEv
      (.gate prop (Verify.runAll checkers runs env.opts.verifyCtx prop) :: early) log ∧
    ∀ r ∈ Verify.runAll checkers runs env.opts.verifyCtx prop, r.pass = true

/-- The call belongs to the latest reply, which answers a request made under the plan. -/
structure Requested (plan : IntentPlan) (call : ToolCallDone) (log : List Ev) : Prop where
  replied : ∃ acc, latestReply log = some acc ∧ call ∈ acc.calls
  planned : ∃ msgs, latestPlan log = some (msgs, toolsetFor plan env.opts.tools)

/-- A dispatch: a requested call of a registered tool, vetted when the tool writes. -/
structure Dispatch (plan : IntentPlan) (inv : Tools.Invocation) (past : List Ev)
    (call : ToolCallDone) (tool : Tools.Tool) : Prop where
  invocation : inv = invocationOf call
  requested : Requested env plan call past
  registered : ∃ reg, env.opts.tools = some reg ∧ reg.find call.name = some tool
  vetted : tool.spec.category = .write → ∃ prop, Vetted env call prop past

/-- An execution: the run of the registered tool that the permission gate has allowed. -/
structure Execution (spec : Tools.ToolSpec) (inv : Tools.Invocation) (before : Disk)
    (result : Tools.ToolResult) (after : Disk) (tool : Tools.Tool) : Prop where
  permitted : ∃ reg gate asked, env.opts.tools = some reg ∧ env.opts.permission = some gate ∧
    gate.permit reg asked inv.toolName inv = .ok tool
  spec : tool.spec = spec
  ran : ∃ asked canceled, tool.run asked inv canceled before = (result, after)

/-- What holds of an entry of the log and its past. -/
def DispatchFact (plan : IntentPlan) (past : List Ev) : Ev → Prop
  | .permission inv => ∃ call tool, Dispatch env plan inv past call tool
  | .execute spec inv before result after =>
      ∃ earlier tool, past = .permission inv :: earlier ∧
        Execution env spec inv before result after tool
  | _ => True

variable {plan : IntentPlan}

/-- No entry of the class is a dispatch or an execution. -/
structure Undispatched (A : Ev → Prop) : Prop where
  permission : ∀ inv, ¬A (.permission inv)
  execute : ∀ spec inv before result after, ¬A (.execute spec inv before result after)

theorem undispatched_moveEv : Undispatched MoveEv := ⟨fun _ => id, fun _ _ _ _ _ => id⟩

theorem undispatched_checkEv : Undispatched CheckEv := ⟨fun _ => id, fun _ _ _ _ _ => id⟩

theorem undispatched_frontEv (tools : List ToolSpec) : Undispatched (FrontEv tools) :=
  ⟨fun _ => id, fun _ _ _ _ _ => id⟩

theorem undispatched_netEv (msgs : List Message) (used : UInt64) (tools : List ToolSpec) :
    Undispatched (NetEv msgs used tools) := ⟨fun _ => id, fun _ _ _ _ _ => id⟩

/-- Entries that are neither dispatches nor executions keep the discipline. -/
theorem disciplined_extend {A : Ev → Prop} {past now : List Ev}
    (held : Always (DispatchFact env plan) past) (ext : Extends A past now)
    (undispatched : Undispatched A) : Always (DispatchFact env plan) now := by
  refine ext.always held fun mid e _ inA => ?_
  cases e with
  | permission inv => exact absurd inA (undispatched.permission inv)
  | execute spec inv before result after =>
      exact absurd inA (undispatched.execute spec inv before result after)
  | _ => trivial

/-- No entry of the class is a plan or a reply. -/
structure Unsettled (A : Ev → Prop) : Prop where
  plan : ∀ msgs tools, ¬A (.plan msgs tools)
  reply : ∀ history acc, ¬A (.reply history acc)

theorem unsettled_moveEv : Unsettled MoveEv := ⟨fun _ _ => id, fun _ _ => id⟩

theorem unsettled_toolEv : Unsettled ToolEv := ⟨fun _ _ => id, fun _ _ => id⟩

theorem Requested.extend {A : Ev → Prop} {call : ToolCallDone} {past now : List Ev}
    (held : Requested env plan call past) (ext : Extends A past now)
    (unsettled : Unsettled A) : Requested env plan call now := by
  have reply : latestReply now = latestReply past := by
    refine ext.findSome _ fun e inA => ?_
    cases e with
    | reply h acc => exact absurd inA (unsettled.reply h acc)
    | _ => rfl
  have planned : latestPlan now = latestPlan past := by
    refine ext.findSome _ fun e inA => ?_
    cases e with
    | plan msgs tools => exact absurd inA (unsettled.plan msgs tools)
    | _ => rfl
  exact ⟨reply ▸ held.replied, planned ▸ held.planned⟩

/-! ## The calls of a reply -/

/-- A dispatch and what it leads to keep the discipline. -/
theorem Dispatched.disciplined {reg : Tools.ToolRegistry} {gate : Tools.Gate}
    {call : ToolCallDone} {outcome : ToolOutcome} {tool : Tools.Tool} {s s' : Sys P}
    (dispatched : Dispatched reg gate call s outcome s') (tools : env.opts.tools = some reg)
    (permission : env.opts.permission = some gate)
    (dispatch : Dispatch env plan (invocationOf call) s.log call tool)
    (held : Always (DispatchFact env plan) s.log) : Always (DispatchFact env plan) s'.log := by
  obtain ⟨rules, named, log⟩ := dispatched.log
  have handed : Always (DispatchFact env plan) (.permission (invocationOf call) :: s.log) :=
    ⟨⟨call, tool, dispatch⟩, held⟩
  have executed : Always (DispatchFact env plan)
      (executions reg gate (invocationOf call) s ++ .permission (invocationOf call) :: s.log) := by
    unfold executions
    split
    · next allowed permitted =>
        exact ⟨⟨s.log, allowed, rfl, ⟨reg, gate, _, tools, permission, permitted⟩, rfl,
          _, _, rfl⟩, handed⟩
    · exact handed
  rw [log]
  refine disciplined_extend env (A := Eq (.repoRule call.name)) executed
    ⟨rules, rfl, fun e member => (named e member).symm⟩ ⟨nofun, nofun⟩

/-- One call keeps the discipline. -/
theorem runTool_disciplined {call : ToolCallDone} {E : ε → Sys P → Prop} {s : Sys P}
    (tooling : Tooling s.session.state) (requested : Requested env plan call s.log)
    (held : Always (DispatchFact env plan) s.log) :
    wp (runTool env call) (fun _ s' => Always (DispatchFact env plan) s'.log) E s := by
  have begun : Always (DispatchFact env plan) (.toolBegin call :: s.log) := ⟨trivial, held⟩
  refine wp_runTool env tooling ?_ ?_ ?_
  · intro outcome s' refused
    exact disciplined_extend env begun refused.log undispatched_checkEv
  · intro reg gate tool outcome s' tools permission found reads dispatched
    have requested₁ : Requested env plan call (.toolBegin call :: s.log) :=
      requested.extend env (A := Eq (.toolBegin call)) (.single rfl s.log) ⟨nofun, nofun⟩
    have dispatch : Dispatch env plan (invocationOf call) (.toolBegin call :: s.log) call tool :=
      ⟨rfl, requested₁, ⟨reg, tools, found⟩, fun writes => absurd writes reads⟩
    exact dispatched.disciplined env tools permission dispatch begun
  · intro reg gate checkers tool prop s₁ outcome s' tools permission verify found _ cleared
      dispatched
    have requested₁ : Requested env plan call s₁.log :=
      requested.extend env (cleared.log_toolEv env) unsettled_toolEv
    obtain ⟨runs, early, before, after, passing⟩ := cleared.log
    have vetted : Vetted env call prop s₁.log :=
      ⟨cleared.built, checkers, runs, s.log, early, verify, before, after, passing⟩
    have gated : Always (DispatchFact env plan)
        (.gate prop (Verify.runAll checkers runs env.opts.verifyCtx prop) :: early) :=
      ⟨trivial, disciplined_extend env begun before undispatched_moveEv⟩
    have dispatch : Dispatch env plan (invocationOf call) s₁.log call tool :=
      ⟨rfl, requested₁, ⟨reg, tools, found⟩, fun _ => ⟨prop, vetted⟩⟩
    exact dispatched.disciplined env tools permission dispatch
      (disciplined_extend env gated after undispatched_moveEv)

/-- The calls of a reply keep the discipline. -/
theorem toolLoop_disciplined (calls : List ToolCallDone) {E : ε → Sys P → Prop} {s : Sys P}
    (tooling : Tooling s.session.state)
    (requested : ∀ call ∈ calls, Requested env plan call s.log)
    (held : Always (DispatchFact env plan) s.log) :
    wp (toolLoop env calls) (fun _ s' => Always (DispatchFact env plan) s'.log) E s := by
  refine wp_toolLoop env (I := fun rest s' => Tooling s'.session.state ∧
    (∀ call ∈ rest, Requested env plan call s'.log) ∧ Always (DispatchFact env plan) s'.log)
    ?_ ?_ ?_ calls s ⟨tooling, requested, held⟩
  · rintro s' ⟨-, -, held⟩
    exact held
  · rintro call rest s' ⟨-, -, held⟩ _ s'' _ _ _ log
    rw [log]
    exact ⟨trivial, trivial, held⟩
  · rintro call rest s' ⟨tooling, requested, held⟩ _ s₁ _ state log
    have polled : Extends ToolEv s'.log s₁.log :=
      log ▸ .single (show ToolEv (.poll .tool false) from rfl) s'.log
    have requested₁ : ∀ c ∈ call :: rest, Requested env plan c s₁.log :=
      fun c member => (requested c member).extend env polled unsettled_toolEv
    have held₁ : Always (DispatchFact env plan) s₁.log := by
      rw [log]
      exact ⟨trivial, held⟩
    have tooling₁ : Tooling s₁.session.state := state.symm ▸ tooling
    refine wp_mono (wp_and (runTool_spec env (E := E) tooling₁)
      (runTool_disciplined env (E := E) tooling₁ (requested₁ call (List.mem_cons_self ..)) held₁))
      (fun outcome s₂ ran => ?_) (fun _ _ exited => exited.1)
    obtain ⟨⟨_, tooling₂, ext⟩, held₂⟩ := ran
    intro s₃ answered
    rw [answered.log]
    refine ⟨fun _ => ⟨trivial, held₂⟩, fun _ _ => ⟨trivial, held₂⟩, fun _ _ =>
      ⟨answered.state.symm ▸ tooling₂, fun c member => ?_, held₂⟩⟩
    exact (requested₁ c (List.mem_cons_of_mem _ member)).extend env ext unsettled_toolEv

/-! ## Rounds and drives -/

/-- When the reply is taken over, its calls are requested. -/
theorem requested_replied {s s' : Sys P} {made : Nat}
    (assembled : Assembled (toolsetFor plan env.opts.tools) s.log)
    (called : Called (toolsetFor plan env.opts.tools) made s s') :
    ∀ call ∈ s'.acc.calls, Requested env plan call (s'.replied env).log := by
  intro call member
  obtain ⟨_, planned, _, latest⟩ := assembled
  refine ⟨⟨s'.acc, rfl, member⟩, planned.messages, ?_⟩
  show latestPlan s'.log = _
  rw [latestPlan_of_net called.calm.log, latest]

/-- **One round** keeps the discipline. -/
theorem round_disciplined {s : Sys P} (going : Going s)
    (held : Always (DispatchFact env plan) s.log) :
    wp (round env plan) (fun _ s' => Always (DispatchFact env plan) s'.log)
      (fun _ s' => Always (DispatchFact env plan) s'.log) s := by
  refine wp_round env going.resting ?_ ?_ ?_
  · intro _ s' _ _ log
    rw [log]
    exact ⟨trivial, held⟩
  · intro _ s' e prepared
    exact disciplined_extend env held prepared.calm.log (undispatched_frontEv _)
  · intro _ s₁ budget prepared _ assembled
    have held₁ := disciplined_extend env held prepared.calm.log (undispatched_frontEv _)
    refine wp_mono (oneRound_spec env _ budget (.inl prepared.state))
      (fun _ s₂ answered => ?_)
      (fun e s₂ called => disciplined_extend env held₁ called.calm.log (undispatched_netEv ..))
    have held₂ : Always (DispatchFact env plan) (s₂.replied env).log :=
      ⟨trivial, disciplined_extend env held₁ answered.1.calm.log (undispatched_netEv ..)⟩
    refine wp_settleReply env answered.2 ?_ ?_ ?_
    · intro _
      exact ⟨trivial, held₂⟩
    · intro _ s₃ calm _
      exact disciplined_extend env held₂ calm.log ⟨fun _ => id, fun _ _ _ _ _ => id⟩
    · intro s₃ calm toolPhase
      have requested := requested_replied env assembled answered.1
      refine wp_mono (toolLoop_disciplined env _ (.inl toolPhase)
        (fun call member => (requested call member).extend env calm.log unsettled_moveEv)
        (disciplined_extend env held₂ calm.log undispatched_moveEv))
        (fun _ s₄ held₄ => ?_) (fun _ _ failed => failed)
      intro s₅ quiet
      have held₅ := disciplined_extend env held₄ quiet.log ⟨fun _ => id, fun _ _ _ _ _ => id⟩
      exact ⟨fun _ => held₅, fun _ _ => held₅, fun _ _ => held₅⟩

/-- **Every drive keeps the discipline**, looked at after any number of rounds. -/
theorem drive_disciplined (fuel : Nat) (input : Bytes) (s : Sys P) :
    Always (DispatchFact env (classifyIntent input)) (drive env fuel input s).2.log := by
  have start : Always (DispatchFact env (classifyIntent input)) s.opened.reset.log := by
    unfold Sys.reset
    split
    · exact ⟨trivial, trivial⟩
    · trivial
  refine drive_rule env
    (I := fun s' => Going s' ∧ Always (DispatchFact env (classifyIntent input)) s'.log)
    (E := fun s' => Always (DispatchFact env (classifyIntent input)) s'.log)
    (F := fun _ s' => Always (DispatchFact env (classifyIntent input)) s'.log) ?_ ?_ ?_ ?_ fuel
  · refine wp_beginDrive env ?_ ?_ ?_
    · intro _
      exact start
    · intro _ _ s' _ _ log
      rw [log]
      exact ⟨trivial, start⟩
    · intro idle _ s' begun
      exact ⟨rfl, begun_going env idle begun, disciplined_extend env start begun.log ⟨fun _ => id, fun _ _ _ _ _ => id⟩⟩
  · intro s' held
    exact wp_mono (wp_and (round_going env _ held.1) (round_disciplined env held.1 held.2))
      (fun _ _ post => post) (fun _ _ post => post.2)
  · intro s' held
    exact held.2
  · intro s' held
    exact wp_mono (finishDrive_spec env (E := fun _ _ => False) _)
      (fun _ s'' finished => disciplined_extend env held finished.log ⟨fun _ => id, fun _ _ _ _ _ => id⟩)
      (fun _ _ impossible => impossible)

end Opencodepp.Agent
