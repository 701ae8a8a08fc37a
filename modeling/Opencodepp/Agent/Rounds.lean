import Opencodepp.Agent.Network

/-!
# The rules of a round and of a drive

What holds of a drive is proved by an invariant of its rounds.  This module provides the
rules for that: `wp_round` runs a round up to its reply, `wp_settleReply` from the reply to
the round's end, and `drive_rule` puts the start, the rounds and the end of a drive
together.  Each rule hands on what the stretches in between have left alone.
-/

set_option autoImplicit false

namespace Opencodepp.Agent

open Opencodepp.Core
open Opencodepp.Library
open Opencodepp.Library.Program
open Opencodepp.Library.Trace
open Opencodepp.Msg
open Opencodepp.Provider

variable {P : Provider} {ε : Type} (env : Env)

/-! ## Reports and transitions -/

/-- Reports of one phase. -/
def Reports (phase : String) : AgentState → Ev → Prop
  | state, .emit event => event.state = state ∧ event.phase = str phase
  | _, _ => False

/-- Legal transitions between states of a running task, and lawful reports. -/
def MoveEv : Ev → Prop
  | .setState source target => isTerminal target = false ∧ validTransition source target = true
  | .emit event => event.phase ≠ str "done" ∧ Legal (.emit event)
  | _ => False

theorem legal_of_moveEv {e : Ev} (move : MoveEv e) : Legal e := by
  cases e <;> simp only [MoveEv] at move
  case setState => exact move.2
  case emit => exact move.2

theorem moveEv_of_reports {phase : String} {state : AgentState}
    (notDone : str phase ≠ str "done")
    (expected : ∀ target, expectedState (str phase) = some target → state = target) {e : Ev}
    (reports : Reports phase state e) : MoveEv e := by
  cases e <;> simp only [Reports] at reports
  case emit event =>
      obtain ⟨carries, named⟩ := reports
      refine ⟨named ▸ notDone, fun target found => ?_⟩
      rw [named] at found
      rw [carries]
      exact expected target found

/-- A report never fails. -/
theorem wp_emit {phase : String} {detail : Bytes} {status : Nat} {Q : Unit → Sys P → Prop}
    {E : ε → Sys P → Prop} {s : Sys P} (post : ∀ s', Quiet (Reports phase) s s' → Q () s') :
    wp (emit env phase detail status) Q E s := by
  have quiet := quiet_emit (A := Reports phase) (ε := ε) (P := P) env
    (fun _ _ _ => ⟨rfl, rfl⟩ : ∀ state lane tokens,
      Reports phase state (.emit ⟨state, lane, str phase, detail, tokens, status⟩)) s
  unfold wp emit at *
  split at quiet
  · next sink =>
      simp only [sink, if_true]
      exact post _ quiet
  · next sink =>
      simp only [sink]
      exact post _ quiet

/-- A legal transition and its report. -/
theorem wp_enter {target : AgentState} {phase : String} {detail : Bytes} {status : Nat}
    {Q : Unit → Sys P → Prop} {E : ε → Sys P → Prop} {s : Sys P}
    (valid : validTransition s.session.state target = true)
    (inner : isTerminal target = false) (notDone : str phase ≠ str "done")
    (expected : ∀ state, expectedState (str phase) = some state → target = state)
    (post : ∀ s', Calm MoveEv s s' → s'.session.state = target → Q () s') :
    wp (enter env target phase detail status) Q E s := by
  unfold enter
  rw [wp_bind, wp_setState]
  refine wp_emit env fun s' quiet => ?_
  have reached : nextState s.session.state target = target := nextState_of_valid valid
  have moved : Calm MoveEv s
      { s with
        session.state := nextState s.session.state target
        log := .setState s.session.state target :: s.log } :=
    ⟨rfl, fun set => set, .single ⟨inner, valid⟩ s.log⟩
  refine post s' (moved.trans (quiet.calm fun _ => moveEv_of_reports notDone ?_))
    (quiet.state.trans reached)
  intro state found
  exact reached.trans (expected state found)

theorem wp_checkpoint {Q : Unit → Sys P → Prop} {E : ε → Sys P → Prop} {s : Sys P}
    (post : ∀ s', Quiet (Reports "checkpoint") s s' → Q () s') :
    wp (checkpoint env) Q E s := by
  unfold checkpoint
  rw [wp_onlyIf]
  exact ⟨fun _ => wp_emit env post, fun _ => post s ((Quiet.framing _).refl s)⟩

/-! ## The front of a round -/

/-- The states a round may start in. -/
def Resting (state : AgentState) : Prop :=
  state = .preparing ∨ state = .toolPhase ∨ state = .verifying ∨ state = .applying

/-- One step of the normalisation. -/
theorem normaliseStep {source target : AgentState} {phase : String} {detail : Bytes}
    {E : ε → Sys P → Prop} {s : Sys P} (valid : validTransition source target = true)
    (inner : isTerminal target = false) (notDone : str phase ≠ str "done")
    (expected : ∀ state, expectedState (str phase) = some state → target = state) :
    wp (.onlyIf (s.session.state = source) (enter env target phase detail 0))
      (fun _ s' => Calm MoveEv s s' ∧
        s'.session.state = if s.session.state = source then target else s.session.state) E s := by
  rw [wp_onlyIf]
  refine ⟨fun here => ?_, fun elsewhere => ?_⟩
  · have same : s.session.state = source := by simpa using here
    refine wp_enter env (same ▸ valid) inner notDone expected fun s' calm reached => ?_
    exact ⟨calm, by rw [reached, if_pos same]⟩
  · have other : s.session.state ≠ source := by simpa using elsewhere
    exact ⟨(Calm.framing _).refl s, by rw [if_neg other]⟩

theorem normaliseRound_spec {E : ε → Sys P → Prop} {s : Sys P}
    (rested : Resting s.session.state) :
    wp (normaliseRound env)
      (fun _ s' => Calm MoveEv s s' ∧
        (s'.session.state = .preparing ∨ s'.session.state = .idle)) E s := by
  unfold normaliseRound
  rw [wp_bind, wp_gets, wp_bind]
  refine wp_mono (normaliseStep env (by decide) (by decide) (by decide) (by decide))
    (fun _ s₁ first => ?_) (fun _ _ exited => exited)
  rw [wp_bind, wp_gets, wp_bind]
  refine wp_mono (normaliseStep env (by decide) (by decide) (by decide) (by decide))
    (fun _ s₂ second => ?_) (fun _ _ exited => exited)
  rw [wp_bind, wp_gets]
  refine wp_mono (normaliseStep env (by decide) (by decide) (by decide) (by decide))
    (fun _ s₃ third => ?_) (fun _ _ exited => exited)
  refine ⟨(first.1.trans second.1).trans third.1, ?_⟩
  rw [third.2, second.2, first.2]
  rcases rested with same | same | same | same <;> rw [same] <;> decide

/-- What the front of a round logs. -/
def FrontEv (tools : List ToolSpec) : Ev → Prop
  | .poll site seen => site = .roundTop ∧ seen = false
  | .plan _ offered => offered = tools
  | e => MoveEv e

theorem frontEv_of_moveEv {tools : List ToolSpec} {e : Ev} (move : MoveEv e) :
    FrontEv tools e := by
  cases e <;> simp only [MoveEv] at move
  case setState => exact move
  case emit => exact move

theorem legal_of_frontEv {tools : List ToolSpec} {e : Ev} (front : FrontEv tools e) :
    Legal e := by
  cases e <;> simp only [FrontEv] at front <;> first | trivial | exact legal_of_moveEv front

/-- The messages and the tools of the latest plan. -/
def latestPlan (log : List Ev) : Option (List Message × List ToolSpec) :=
  log.findSome? fun
    | .plan msgs tools => some (msgs, tools)
    | _ => none

theorem latestPlan_of_moves {past now : List Ev} (ext : Extends MoveEv past now) :
    latestPlan now = latestPlan past := by
  refine ext.findSome _ fun e move => ?_
  cases e <;> simp only [MoveEv] at move <;> rfl

theorem latestPlan_of_net {msgs : List Message} {used : UInt64} {tools : List ToolSpec}
    {past now : List Ev} (ext : Extends (NetEv msgs used tools) past now) :
    latestPlan now = latestPlan past := by
  refine ext.findSome _ fun e net => ?_
  cases e <;> first | rfl | cases net

/-- The latest plan was assembled for these tools. -/
def Assembled (tools : List ToolSpec) (log : List Ev) : Prop :=
  ∃ input planned, Prompt.assembleContext input = .ok planned ∧
    latestPlan log = some (planned.messages, tools)

theorem assemble_spec (plan : IntentPlan) {s : Sys P} :
    wp (assemble env plan)
      (fun prepared s' =>
        Calm (FrontEv (toolsetFor plan env.opts.tools)) s s' ∧
        s'.session.state = s.session.state ∧ prepared.1 = toolsetFor plan env.opts.tools ∧
        Assembled (toolsetFor plan env.opts.tools) s'.log)
      (fun _ s' =>
        Calm (FrontEv (toolsetFor plan env.opts.tools)) s s' ∧
        s'.session.state = s.session.state) s := by
  have framing := Quiet.framing (P := P) (Reports "fold")
  have early {s' : Sys P} (quiet : Quiet (Reports "fold") s s') :
      Calm (FrontEv (toolsetFor plan env.opts.tools)) s s' ∧
        s'.session.state = s.session.state :=
    ⟨quiet.calm fun _ reports => frontEv_of_moveEv
      (moveEv_of_reports (by decide) (expected_of_none (by decide)) reports), quiet.state⟩
  unfold assemble
  rw [wp_bind, wp_stopIf]
  refine ⟨fun _ => early (framing.refl s), fun _ => ?_⟩
  dsimp only
  rw [wp_bind, wp_gets, wp_bind]
  have folds : Within (Quiet (Reports "fold")) (.onlyIf
      (foldedHistory env s.session.messages).folded (emit env "fold"
        ((foldedHistory env s.session.messages).eventWhat ++ str ": " ++
          (foldedHistory env s.session.messages).eventReason) 0) :
        Program (Sys P) Failure Unit) :=
    .onlyIf framing (quiet_emit env fun _ _ _ => ⟨rfl, rfl⟩)
  refine wp_mono (folds.wp s) (fun _ s₁ folded => ?_) (fun _ _ quiet => early quiet)
  rw [wp_bind]
  refine wp_mono ((quiet_memoryTier env).wp s₁) (fun memory s₂ remembered => ?_)
    (fun _ _ quiet => early (framing.trans folded quiet))
  have reached := early (framing.trans folded remembered)
  rw [wp_bind, wp_gets]
  split
  · exact reached
  · next planned assembled =>
      rw [wp_bind, wp_record, wp_pure]
      have noted : FrontEv (toolsetFor plan env.opts.tools)
          (.plan planned.messages (toolsetFor plan env.opts.tools)) := rfl
      exact ⟨reached.1.trans ⟨rfl, fun set => set, .single noted s₂.log⟩, reached.2, rfl,
        _, planned, assembled, rfl⟩

/-- The system when a round is about to call the provider, or has failed to. -/
structure Prepared (plan : IntentPlan) (s s' : Sys P) : Prop where
  calm : Calm (FrontEv (toolsetFor plan env.opts.tools)) s s'
  state : s'.session.state = .preparing

theorem prepareRound_spec (plan : IntentPlan) {s : Sys P}
    (ready : s.session.state = .preparing ∨ s.session.state = .idle) :
    wp (prepareRound env plan)
      (fun prepared s' =>
        Prepared env plan s s' ∧ prepared.1 = toolsetFor plan env.opts.tools ∧
        budgetExhausted env.session s.session.tokensUsed = false ∧
        Assembled (toolsetFor plan env.opts.tools) s'.log)
      (fun _ s' => Prepared env plan s s') s := by
  have valid : validTransition s.session.state .preparing = true := by
    rcases ready with same | same <;> rw [same] <;> decide
  have moved : Prepared env plan s
      { s with
        session.state := nextState s.session.state .preparing
        log := .setState s.session.state .preparing :: s.log } :=
    ⟨⟨rfl, fun set => set, .single (frontEv_of_moveEv (show MoveEv (.setState _ _) from
      ⟨rfl, valid⟩)) s.log⟩, nextState_of_valid valid⟩
  unfold prepareRound
  rw [wp_bind, wp_setState, wp_bind, wp_gets, wp_bind, wp_stopIf]
  refine ⟨fun _ => moved, fun left => ?_⟩
  rw [wp_bind]
  refine wp_mono (assemble_spec env plan) (fun prepared s₁ assembled => ?_)
    (fun _ _ failed => ⟨moved.calm.trans failed.1, failed.2.trans moved.state⟩)
  obtain ⟨calm, state, tools, planned⟩ := assembled
  rw [wp_bind]
  refine wp_emit env fun s₂ quiet => ?_
  have reported := quiet.calm fun _ reports =>
    moveEv_of_reports (by decide) (expected_of_none (by decide)) reports
  refine ⟨⟨(moved.calm.trans calm).trans (reported.mono fun _ => frontEv_of_moveEv),
    quiet.state.trans (state.trans moved.state)⟩, tools, left, ?_⟩
  obtain ⟨input, plan', ok, latest⟩ := planned
  exact ⟨input, plan', ok, (latestPlan_of_moves reported.log).trans latest⟩

/-! ## The rule of a round -/

theorem wp_orBreak {α : Type} (x : Program (Sys P) Failure α) (Q : α → Sys P → Prop)
    (E : Unit → Sys P → Prop) (s : Sys P) :
    wp (orBreak x) Q E s ↔ wp x Q (fun e s' => E () { s' with result.ec := e.ec }) s := by
  unfold orBreak breakWith
  rw [wp_bind, wp_attempt]
  exact Iff.rfl

/-- **A round up to its reply.**  It is stopped at its top, fails while it is prepared, or
calls the provider with the tools of the plan and tokens left. -/
theorem wp_round {plan : IntentPlan} {Q E : Unit → Sys P → Prop} {s : Sys P}
    (rested : Resting s.session.state)
    (stopped : s.cancel = true → ∀ s', s'.books = s.books →
      s'.session.state = s.session.state → s'.log = .poll .roundTop true :: s.log → E () s')
    (broken : s.cancel = false → ∀ s' (e : Failure), Prepared env plan s s' →
      E () { s' with result.ec := e.ec })
    (called : s.cancel = false → ∀ s' budget, Prepared env plan s s' →
      budgetExhausted env.session s.session.tokensUsed = false →
      Assembled (toolsetFor plan env.opts.tools) s'.log →
      wp (oneRound env (toolsetFor plan env.opts.tools) budget)
        (fun _ => wp (settleReply env) Q E)
        (fun e s'' => E () { s'' with result.ec := e.ec }) s') :
    wp (round env plan) Q E s := by
  unfold round
  rw [wp_bind, wp_pollCancel, wp_bind, wp_stopIf]
  refine ⟨fun seen => stopped seen _ rfl rfl (by rw [seen]), fun notSeen => ?_⟩
  have polled : Calm (FrontEv (toolsetFor plan env.opts.tools)) s
      { s with
        cancel := s.cancel || env.world.hostCancels s.count.polls
        count.polls := s.count.polls + 1
        log := .poll .roundTop s.cancel :: s.log } :=
    ⟨rfl, fun set => by simp [set], .single ⟨rfl, notSeen⟩ s.log⟩
  rw [wp_bind]
  refine wp_mono (normaliseRound_spec env rested) (fun _ s₁ normal => ?_) (fun _ _ failed => failed)
  have front := polled.trans (normal.1.mono fun _ => frontEv_of_moveEv)
  rw [wp_bind, wp_orBreak]
  refine wp_mono (prepareRound_spec env plan normal.2) (fun prepared s₂ post => ?_)
    (fun e s₂ failed => broken notSeen s₂ e ⟨front.trans failed.calm, failed.state⟩)
  obtain ⟨ready, tools, left, planned⟩ := post
  rw [wp_bind, wp_orBreak, tools]
  rw [front.tokensUsed] at left
  exact called notSeen s₂ prepared.2 ⟨front.trans ready.calm, ready.state⟩ left planned

/-! ## The rule of a reply -/

/-- The message a reply is kept as. -/
def Sys.replyMessage (s : Sys P) : Message :=
  ⟨str "m" ++ decimal (s.session.msgSeq + 1), env.session.id, .assistant,
    env.session.model.apiModelName, assistantParts s.acc.text s.acc.calls s.acc.finish,
    env.world.wallClock s.count.clock⟩

/-- The system once the reply is taken over. -/
def Sys.replied (s : Sys P) : Sys P :=
  { s with
    result.iterations := s.result.iterations + 1
    log := .reply s.session.messages s.acc :: s.log
    session.messages := s.session.messages ++ [s.replyMessage env]
    session.msgSeq := s.session.msgSeq + 1
    session.tokensUsed := accountTokens s.session.tokensUsed s.acc.usage
    count.clock := s.count.clock + 1 }

theorem wp_acceptReply (Q : Accum → Sys P → Prop) (E : ε → Sys P → Prop) (s : Sys P) :
    wp (acceptReply env) Q E s ↔ Q s.acc (s.replied env) := Iff.rfl

/-- The end of a task, in the log. -/
def EndEv : Ev → Prop
  | .setState source target => validTransition source target = true ∧ target = .done
  | .emit event => event.phase = str "done"
  | _ => False

/-- How a round goes on when its tools have run. -/
def AfterTools (Q E : Unit → Sys P → Prop) (s : Sys P) : Prop :=
  (s.result.ec.code = .eCancelled → E () s) ∧
  (s.result.ec.code ≠ .eCancelled → s.abortedByFeedback = true →
    E () { s with result.ec := ⟨.eAborted, 0⟩ }) ∧
  (s.result.ec.code ≠ .eCancelled → s.abortedByFeedback = false → Q () s)

theorem wp_toolRound {calls : List ToolCallDone} {Q E : Unit → Sys P → Prop} {s : Sys P}
    (streaming : s.session.state = .streaming)
    (tools : ∀ s', Calm MoveEv s s' → s'.session.state = .toolPhase →
      wp (toolLoop env calls)
        (fun _ s'' => ∀ s₃, Quiet (Reports "checkpoint") s'' s₃ → AfterTools Q E s₃) E s') :
    wp (toolRound env calls) Q E s := by
  unfold toolRound
  rw [wp_bind]
  refine wp_enter env (by rw [streaming]; decide) rfl (by decide)
    (expected_of_none (by decide)) fun s₁ calm reached => ?_
  rw [wp_bind]
  refine wp_mono (tools s₁ calm reached) (fun _ s₂ after => ?_) (fun _ _ failed => failed)
  rw [wp_bind]
  refine wp_checkpoint env fun s₃ quiet => ?_
  obtain ⟨cancelled, aborted, goesOn⟩ := after s₃ quiet
  rw [wp_bind, wp_gets, wp_bind, wp_stopIf]
  refine ⟨fun isCancelled => cancelled (by simpa using isCancelled), fun notCancelled => ?_⟩
  have other : s₃.result.ec.code ≠ .eCancelled := by simpa using notCancelled
  rw [wp_bind, wp_gets, wp_onlyIf]
  exact ⟨fun set => aborted other set, fun clear => goesOn other clear⟩

/-- **A round from its reply on.**  The provider refuses, the task is concluded, or the
tools run. -/
theorem wp_settleReply {Q E : Unit → Sys P → Prop} {s : Sys P}
    (streaming : s.session.state = .streaming)
    (denied : s.acc.finish = .permissionDenied →
      E () { s.replied env with
        result.ec := ⟨.eToolReject, 0⟩
        log := .dropped s.acc.calls :: (s.replied env).log })
    (concluded : s.acc.calls = [] → ∀ s',
      Calm EndEv { s.replied env with result.summary := s.acc.text } s' →
      s'.session.state = .done → E () s')
    (tools : ∀ s', Calm MoveEv (s.replied env) s' → s'.session.state = .toolPhase →
      wp (toolLoop env s.acc.calls)
        (fun _ s'' => ∀ s₃, Quiet (Reports "checkpoint") s'' s₃ → AfterTools Q E s₃) E s') :
    wp (settleReply env) Q E s := by
  have state : (s.replied env).session.state = .streaming := streaming
  unfold settleReply
  rw [wp_bind, wp_acceptReply, wp_ite]
  refine ⟨fun refusing => denied refusing, fun _ => ?_⟩
  rw [wp_ite]
  refine ⟨fun none_ => ?_, fun _ => wp_toolRound env state tools⟩
  unfold concludeTask enter
  rw [wp_bind, wp_update, wp_bind, wp_bind, wp_setState]
  have legal : validTransition (s.replied env).session.state .done = true := by
    rw [state]
    decide
  refine wp_emit env fun s' quiet => concluded none_ s' ?_ ?_
  · have moved : Calm EndEv { s.replied env with result.summary := s.acc.text }
        { s.replied env with
          result.summary := s.acc.text
          session.state := nextState (s.replied env).session.state .done
          log := .setState (s.replied env).session.state .done :: (s.replied env).log } :=
      ⟨rfl, fun set => set, .single ⟨legal, rfl⟩ _⟩
    refine moved.trans (quiet.calm fun e reports => ?_)
    cases e <;> simp only [Reports] at reports
    case emit => exact reports.2
  · exact quiet.state.trans (nextState_of_valid legal)

/-! ## The rule of a drive -/

/-- The session as a drive takes it over: a finished task is reset when the table
allows it. -/
def Sys.reset (s : Sys P) : Sys P :=
  if isTerminal s.session.state then
    { s with
      session.state := nextState s.session.state .idle
      log := .setState s.session.state .idle :: s.log }
  else s

/-- What the start of a drive logs. -/
def StartEv : Ev → Prop
  | .poll site seen => site = .entry ∧ seen = false
  | e => MoveEv e

/-- The system when the first round of a drive begins. -/
structure Begun (input : Bytes) (s s' : Sys P) : Prop where
  messages : ∃ id created, s'.session.messages =
    s.session.messages ++ [⟨id, env.session.id, .user, [], [.text input], created⟩]
  tokensUsed : s'.session.tokensUsed = s.session.tokensUsed
  result : s'.result = s.result
  aborted : s'.abortedByFeedback = false
  state : s'.session.state = .preparing
  log : Extends StartEv s.log s'.log

/-- **The start of a drive.** -/
theorem wp_beginDrive {input : Bytes} {Q : IntentPlan → Sys P → Prop}
    {E : Failure → Sys P → Prop} {s : Sys P}
    (busy : s.reset.session.state ≠ .idle → E (.of .eBusy) s.reset)
    (cancelled : s.reset.session.state = .idle → s.cancel = true → ∀ s',
      s'.books = s.reset.books → s'.session.state = .idle →
      s'.log = .poll .entry true :: s.reset.log → E cancelledFailure s')
    (begun : s.reset.session.state = .idle → s.cancel = false → ∀ s',
      Begun env input s.reset s' → Q (classifyIntent input) s') :
    wp (beginDrive env input) Q E s := by
  have resets : wp (.onlyIf (isTerminal s.session.state) (setState .idle) :
      Program (Sys P) Failure Unit) (fun _ s' => s' = s.reset) (fun _ _ => False) s := by
    rw [wp_onlyIf]
    exact ⟨fun terminal => by simp [Sys.reset, terminal],
      fun running => by simp [Sys.reset, running]⟩
  have flag : s.reset.cancel = s.cancel := by
    unfold Sys.reset
    split <;> rfl
  unfold beginDrive
  rw [wp_bind, wp_gets, wp_bind]
  refine wp_mono resets (fun _ s₁ same => ?_) (fun _ _ impossible => impossible.elim)
  subst same
  rw [wp_bind, wp_gets, wp_bind, wp_stopIf]
  refine ⟨fun notIdle => busy (by simpa using notIdle), fun idle => ?_⟩
  have rested : s.reset.session.state = .idle := by simpa using idle
  unfold checkCancel
  rw [wp_bind, wp_bind, wp_pollCancel, wp_stopIf]
  refine ⟨fun seen => cancelled rested (flag ▸ seen) _ rfl rested (by rw [seen]), fun clear => ?_⟩
  rw [wp_bind, wp_update, wp_bind]
  refine wp_enter env (by rw [rested]; decide) rfl (by decide)
    (expected_of_none (by decide)) fun s₂ calm reached => ?_
  rw [wp_bind]
  refine begun rested (flag ▸ clear) _ ?_
  have polled : Extends StartEv s.reset.log (.poll .entry s.reset.cancel :: s.reset.log) :=
    .single ⟨rfl, clear⟩ s.reset.log
  refine ⟨⟨_, _, congrArg (· ++ _) calm.messages⟩, calm.tokensUsed, calm.result,
    congrArg Books.abortedByFeedback calm.books, reached,
    polled.trans (calm.log.mono fun e move => ?_)⟩
  cases e <;> simp only [MoveEv] at move
  case setState => exact move
  case emit => exact move

/-- The state and the phase a drive ends with. -/
def ending (code : Err) : AgentState × String :=
  if code = .eCancelled then (.cancelled, "cancelled")
  else if code = .ok then (.done, "done")
  else (.error, "error")

/-- What the end of a drive logs. -/
def FinishEv (source : AgentState) (code : Err) : Ev → Prop
  | .setState a b => a = source ∧ b = (ending code).1 ∧ (code = .ok → source ≠ .done)
  | .emit event => event.phase = str "checkpoint" ∨ event.phase = str (ending code).2
  | .lesson _ _ => code = .ok
  | _ => False

/-- The system a drive leaves behind. -/
structure Finished (s s' : Sys P) : Prop where
  messages : s'.session.messages = s.session.messages
  ec : s'.result.ec = s.result.ec
  state : s'.session.state = nextState s.session.state (ending s.result.ec.code).1
  log : Extends (FinishEv s.session.state s.result.ec.code) s.log s'.log

theorem wp_enter_ending {target : AgentState} {phase : String} {detail : Bytes} {status : Nat}
    {s s₁ : Sys P} {E : ε → Sys P → Prop} {Q : Unit → Sys P → Prop}
    (named : ending s.result.ec.code = (target, phase))
    (open_ : s.result.ec.code = .ok → s.session.state ≠ .done)
    (messages : s₁.session.messages = s.session.messages)
    (ec : s₁.result.ec = s.result.ec) (state : s₁.session.state = s.session.state)
    (log : Extends (FinishEv s.session.state s.result.ec.code) s.log s₁.log)
    (post : ∀ s', Finished s s' → Q () s') :
    wp (enter env target phase detail status) Q E s₁ := by
  unfold enter
  rw [wp_bind, wp_setState]
  refine wp_emit env fun s' quiet => post s' ?_
  refine ⟨(congrArg Books.messages quiet.books).trans messages,
    (congrArg (DriveResult.ec ∘ Books.result) quiet.books).trans ec, ?_, ?_⟩
  · rw [← state, named]
    exact quiet.state
  · have moved : FinishEv s.session.state s.result.ec.code
        (.setState s₁.session.state target) := ⟨state, by rw [named], open_⟩
    refine (log.trans (.single moved s₁.log)).trans (quiet.log.mono fun e reports => ?_)
    cases e <;> simp only [Reports] at reports
    case emit => exact .inr (by rw [named]; exact reports.2)

theorem wp_writeTaskLesson {plan : IntentPlan} {E : ε → Sys P → Prop} {s s₁ : Sys P}
    (ok : s.result.ec.code = .ok) (finished : Finished s s₁) :
    wp (writeTaskLesson env plan) (fun _ => Finished s) E s₁ := by
  unfold writeTaskLesson
  rw [wp_bind, wp_gets, wp_onlyIf]
  refine ⟨fun _ => ?_, fun _ => finished⟩
  exact ⟨finished.messages, finished.ec, finished.state, .cons ok finished.log⟩

/-- **The end of a drive** asks for the state that belongs to the result. -/
theorem finishDrive_spec (plan : IntentPlan) {E : ε → Sys P → Prop} {s : Sys P} :
    wp (finishDrive env plan) (fun _ => Finished s) E s := by
  unfold finishDrive
  rw [wp_bind]
  refine wp_checkpoint env fun s₁ quiet => ?_
  have messages : s₁.session.messages = s.session.messages :=
    congrArg Books.messages quiet.books
  have ec : s₁.result.ec = s.result.ec := congrArg (DriveResult.ec ∘ Books.result) quiet.books
  have log : Extends (FinishEv s.session.state s.result.ec.code) s.log s₁.log := by
    refine quiet.log.mono fun e reports => ?_
    cases e <;> simp only [Reports] at reports
    case emit => exact .inl reports.2
  rw [wp_bind, wp_update, wp_bind, wp_gets, wp_ite]
  refine ⟨fun cancelled => ?_, fun notCancelled => ?_⟩
  · have isCancelled : s.result.ec.code = .eCancelled := ec ▸ cancelled
    exact wp_enter_ending env (by simp [ending, isCancelled]) (by simp [isCancelled]) messages ec
      quiet.state log fun _ finished => finished
  · rw [wp_ite]
    refine ⟨fun ok => ?_, fun notOk => ?_⟩
    · have isOk : s.result.ec.code = .ok := ec ▸ ok
      have named : ending s.result.ec.code = (.done, "done") := by simp [ending, isOk]
      rw [wp_bind, wp_gets, wp_bind, wp_onlyIf]
      refine ⟨fun notYet => ?_, fun already => ?_⟩
      · have open_ : s.session.state ≠ .done := quiet.state ▸ by simpa using notYet
        exact wp_enter_ending env named (fun _ => open_) messages ec quiet.state log
          fun _ finished => wp_writeTaskLesson env isOk finished
      · have done : s₁.session.state = .done := by simpa using already
        refine wp_writeTaskLesson env isOk ⟨messages, ec, ?_, log⟩
        rw [named, ← quiet.state]
        show s₁.session.state = _
        rw [done]
        rfl
    · have other : s.result.ec.code ≠ .eCancelled ∧ s.result.ec.code ≠ .ok :=
        ec ▸ ⟨notCancelled, notOk⟩
      exact wp_enter_ending env (by simp [ending, other]) (fun ok => absurd ok other.2) messages ec
        quiet.state log fun _ finished => finished

/-- **The rule of a drive.**  `I` holds before every round, `E` when the rounds are over,
and `F` of what the drive returns. -/
theorem drive_rule {input : Bytes} {I E : Sys P → Prop}
    {F : Option DriveResult → Sys P → Prop} {s : Sys P}
    (starts : wp (beginDrive env input) (fun plan s' => plan = classifyIntent input ∧ I s')
      (fun e s' => F (some { s'.result with ec := e.ec }) s') s.opened)
    (round_ : ∀ s', I s' →
      wp (round env (classifyIntent input)) (fun _ => I) (fun _ => E) s')
    (running : ∀ s', I s' → F none s')
    (finishes : ∀ s', E s' →
      wp (finishDrive env (classifyIntent input) : Program (Sys P) Empty Unit)
        (fun _ s'' => F (some s''.result) s'') (fun _ _ => False) s')
    (fuel : Nat) : F (drive env fuel input s).1 (drive env fuel input s).2 := by
  rcases begin_ : beginDrive env input s.opened with ⟨e | plan, s₁⟩
  · have ran : drive env fuel input s = (some { s₁.result with ec := e.ec }, s₁) := by
      simp only [drive, begin_]
    have refused := wp_of_exits starts begin_
    rw [ran]
    exact refused
  · obtain ⟨rfl, start⟩ := wp_of_returns starts begin_
    have rounds := iterate_invariant (E := fun _ => E) round_ fuel s₁ start
    rcases loop : iterate (round env (classifyIntent input)) fuel s₁ with ⟨_ | _, s₂⟩
    · have ran : drive env fuel input s = (none, s₂) := by simp only [drive, begin_, loop]
      rw [ran]
      exact running s₂ (by simpa [loop] using rounds.1)
    · have post := finishes s₂ (by simpa [loop] using rounds.2)
      rcases finish : (finishDrive env (classifyIntent input) : Program (Sys P) Empty Unit) s₂
        with ⟨impossible | _, s₃⟩
      · exact impossible.elim
      · have ran : drive env fuel input s = (some s₃.result, s₃) := by
          simp only [drive, begin_, loop, finish]
        have final := wp_of_returns post finish
        rw [ran]
        exact final

end Opencodepp.Agent
