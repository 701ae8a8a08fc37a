import Opencodepp.Agent.Rounds

/-!
# Running a tool

`wp_runTool` says once everything that executing a call can do: it is refused before
anything is dispatched, it is dispatched as a tool that writes nothing, or it is dispatched
as a write whose proposal has passed the gate in this very call.  `wp_toolLoop` is the rule
for the calls of a reply, and `toolLoop_spec` what they leave alone in every case.
-/

set_option autoImplicit false

namespace Opencodepp.Agent

open Opencodepp.Core
open Opencodepp.Library
open Opencodepp.Library.Program
open Opencodepp.Library.Trace
open Opencodepp.Msg
open Opencodepp.Provider

variable {P : Provider} {ε : Type} (env : Env)

/-- The states tools run in. -/
def Tooling (state : AgentState) : Prop :=
  state = .toolPhase ∨ state = .verifying ∨ state = .applying

/-- What running a tool leaves alone. -/
structure Kept (s s' : Sys P) : Prop where
  messages : s'.session.messages = s.session.messages
  tokensUsed : s'.session.tokensUsed = s.session.tokensUsed
  ec : s'.result.ec = s.result.ec
  cancel : s.cancel = true → s'.cancel = true

namespace Kept

variable {s s' s'' : Sys P}

theorem trans (first : Kept s s') (second : Kept s' s'') : Kept s s'' :=
  ⟨second.messages.trans first.messages, second.tokensUsed.trans first.tokensUsed,
    second.ec.trans first.ec, fun set => second.cancel (first.cancel set)⟩

theorem of_calm {A : Ev → Prop} (calm : Calm A s s') : Kept s s' :=
  ⟨calm.messages, calm.tokensUsed, congrArg DriveResult.ec calm.result, calm.cancel⟩

end Kept

/-! ## The ways a call ends -/

/-- What a call logs before it is dispatched. -/
def CheckEv : Ev → Prop
  | .gate _ _ => True
  | e => MoveEv e

theorem checkEv_of_moveEv {e : Ev} (move : MoveEv e) : CheckEv e := by
  cases e <;> simp only [MoveEv] at move
  case setState => exact move
  case emit => exact move

/-- A call that is answered without being dispatched. -/
structure Refused (call : ToolCallDone) (s : Sys P) (outcome : ToolOutcome) (s' : Sys P) :
    Prop where
  kept : Kept s s'
  state : Tooling s'.session.state
  status : outcome.result.status = .error
  log : Extends CheckEv (.toolBegin call :: s.log) s'.log

/-- A write call whose proposal has passed the gate. -/
structure Cleared (checkers : Verify.Checkers) (call : ToolCallDone)
    (prop : Verify.EditProposal) (s s' : Sys P) : Prop where
  kept : Kept s s'
  state : s'.session.state = .applying
  built : ∃ disk, (buildProposal env.opts.verifyCtx.workspaceRoot call disk).1 = .ok prop
  log : ∃ runs early,
    Extends MoveEv (.toolBegin call :: s.log) early ∧
    Extends MoveEv
      (.gate prop (Verify.runAll checkers runs env.opts.verifyCtx prop) :: early) s'.log ∧
    ∀ r ∈ Verify.runAll checkers runs env.opts.verifyCtx prop, r.pass = true

/-- A call handed to the permission gate. -/
structure Dispatched (reg : Tools.ToolRegistry) (gate : Tools.Gate) (call : ToolCallDone)
    (s : Sys P) (outcome : ToolOutcome) (s' : Sys P) : Prop where
  kept : Kept s s'
  state : s'.session.state = s.session.state
  result : outcome.result =
    (gate.run reg s.count.asks call.name (invocationOf call) s.cancel s.disk).1
  log : ∃ rules, (∀ e ∈ rules, e = .repoRule call.name) ∧
    s'.log = rules ++
      (executions reg gate (invocationOf call) s ++ .permission (invocationOf call) :: s.log)

/-! ## Parts of a call -/

theorem wp_permissionRun (reg : Tools.ToolRegistry) (gate : Tools.Gate)
    (inv : Tools.Invocation) (Q : Tools.ToolResult → Sys P → Prop) (E : ε → Sys P → Prop)
    (s : Sys P) :
    wp (permissionRun reg gate inv) Q E s ↔
      Q (gate.run reg s.count.asks inv.toolName inv s.cancel s.disk).1
        { s with
          disk := (gate.run reg s.count.asks inv.toolName inv s.cancel s.disk).2
          count.asks := s.count.asks + 1
          log := executions reg gate inv s ++ .permission inv :: s.log } := Iff.rfl

theorem wp_writeRepoRule {name : Bytes} {Q : Unit → Sys P → Prop} {E : ε → Sys P → Prop}
    {s : Sys P} (post : ∀ rules, (∀ e ∈ rules, e = .repoRule name) →
      Q () { s with log := rules ++ s.log }) : wp (writeRepoRule env name) Q E s := by
  unfold writeRepoRule
  rw [wp_onlyIf]
  refine ⟨fun _ => post [.repoRule name] (by simp), fun _ => ?_⟩
  exact post [] (fun _ member => absurd member List.not_mem_nil)

/-- The dispatch of a write. -/
theorem wp_applyWrite {reg : Tools.ToolRegistry} {gate : Tools.Gate} {call : ToolCallDone}
    {prop : Verify.EditProposal} {Q : ToolOutcome → Sys P → Prop} {E : ε → Sys P → Prop}
    {s : Sys P} (verifying : s.session.state = .verifying)
    (post : ∀ s₁ outcome s', Calm MoveEv s s₁ → s₁.session.state = .applying →
      Dispatched reg gate call s₁ outcome s' → Q outcome s') :
    wp (applyWrite env reg gate call prop) Q E s := by
  unfold applyWrite
  rw [wp_bind]
  refine wp_enter env (by rw [verifying]; decide) rfl (by decide) (by decide)
    fun s₁ calm reached => ?_
  rw [wp_bind, wp_permissionRun]
  have kept {s' : Sys P} (messages : s'.session.messages = s₁.session.messages)
      (tokens : s'.session.tokensUsed = s₁.session.tokensUsed)
      (ec : s'.result.ec = s₁.result.ec) (cancel : s'.cancel = s₁.cancel) : Kept s₁ s' :=
    ⟨messages, tokens, ec, fun set => cancel.trans set⟩
  split
  · exact post s₁ _ _ calm reached ⟨kept rfl rfl rfl rfl, rfl, rfl, [], by simp, rfl⟩
  · rw [wp_bind, wp_onlyIf]
    refine ⟨fun _ => wp_writeRepoRule env fun rules named => ?_, fun _ => ?_⟩
    · exact post s₁ _ _ calm reached ⟨kept rfl rfl rfl rfl, rfl, rfl, rules, named, rfl⟩
    · exact post s₁ _ _ calm reached ⟨kept rfl rfl rfl rfl, rfl, rfl, [], by simp, rfl⟩
  · exact post s₁ _ _ calm reached ⟨kept rfl rfl rfl rfl, rfl, rfl, [], by simp, rfl⟩

/-- The dispatch of any other tool. -/
theorem wp_runPlainTool {reg : Tools.ToolRegistry} {gate : Tools.Gate} {call : ToolCallDone}
    {Q : ToolOutcome → Sys P → Prop} {E : ε → Sys P → Prop} {s : Sys P}
    (post : ∀ outcome s', Dispatched reg gate call s outcome s' → Q outcome s') :
    wp (runPlainTool env reg gate call) Q E s := by
  have dispatched (feedback : Bytes) (rules : List Ev) (named : ∀ e ∈ rules, e = .repoRule call.name) :
      Dispatched reg gate call s
        ⟨(gate.run reg s.count.asks call.name (invocationOf call) s.cancel s.disk).1, feedback⟩
        { s with
          disk := (gate.run reg s.count.asks call.name (invocationOf call) s.cancel s.disk).2
          count.asks := s.count.asks + 1
          log := rules ++ (executions reg gate (invocationOf call) s ++
            .permission (invocationOf call) :: s.log) } :=
    ⟨⟨rfl, rfl, rfl, fun set => set⟩, rfl, rfl, rules, named, rfl⟩
  unfold runPlainTool
  rw [wp_bind, wp_permissionRun, wp_ite]
  refine ⟨fun _ => post _ _ (dispatched [] [] (by simp)), fun _ => ?_⟩
  rw [wp_ite]
  refine ⟨fun _ => ?_, fun _ => post _ _ (dispatched _ [] (by simp))⟩
  rw [wp_bind]
  exact wp_writeRepoRule env fun rules named => post _ _ (dispatched _ rules named)

/-- Feedback is reported while verifying, and touches only the agent's own flags. -/
theorem wp_gateFeedback {fail : Verify.GateResult} {Q : Bytes → Sys P → Prop}
    {E : ε → Sys P → Prop} {s : Sys P} (verifying : s.session.state = .verifying)
    (post : ∀ text s', Kept s s' → s'.session.state = .verifying →
      Extends MoveEv s.log s'.log → Q text s') : wp (gateFeedback env fail) Q E s := by
  unfold gateFeedback
  rw [wp_bind]
  refine wp_emit env fun s₁ quiet => ?_
  have calm : Calm MoveEv s s₁ :=
    quiet.calm fun _ reports => moveEv_of_reports (by decide) (by rw [verifying]; decide) reports
  have kept := Kept.of_calm calm
  have state : s₁.session.state = .verifying := quiet.state.trans verifying
  rw [wp_bind, wp_gets, wp_ite]
  refine ⟨fun _ => post _ _ ?_ state calm.log, fun _ => post _ _ ?_ state calm.log⟩
  · exact ⟨kept.messages, kept.tokensUsed, kept.ec, kept.cancel⟩
  · exact ⟨kept.messages, kept.tokensUsed, kept.ec, kept.cancel⟩

/-! ## A call -/

/-- A write call: its proposal is refused, or passes the gate and is dispatched. -/
theorem wp_runWriteTool {reg : Tools.ToolRegistry} {gate : Tools.Gate}
    {checkers : Verify.Checkers} {call : ToolCallDone} {Q : ToolOutcome → Sys P → Prop}
    {E : ε → Sys P → Prop} {s₀ s : Sys P} (tooling : Tooling s.session.state)
    (kept : Kept s₀ s) (begun : s.log = .toolBegin call :: s₀.log)
    (refused : ∀ outcome s', Refused call s₀ outcome s' → Q outcome s')
    (applied : ∀ prop s₁ outcome s', Cleared env checkers call prop s₀ s₁ →
      Dispatched reg gate call s₁ outcome s' → Q outcome s') :
    wp (runWriteTool env reg gate checkers call) Q E s := by
  have valid : validTransition s.session.state .verifying = true := by
    rcases tooling with same | same | same <;> rw [same] <;> decide
  unfold runWriteTool
  rw [wp_bind]
  refine wp_enter env valid rfl (by decide) (by decide) fun s₁ calm verifying => ?_
  have early : Extends MoveEv (.toolBegin call :: s₀.log) s₁.log := begun ▸ calm.log
  have untouched : Kept s₀ s₁ := kept.trans (.of_calm calm)
  rw [wp_bind]
  show wp _ Q E { s₁ with disk := (buildProposal env.opts.verifyCtx.workspaceRoot call s₁.disk).2 }
  split
  · exact refused _ _ ⟨⟨untouched.messages, untouched.tokensUsed, untouched.ec,
      untouched.cancel⟩, .inr (.inl verifying), rfl, early.mono fun _ => checkEv_of_moveEv⟩
  · next prop built =>
      rw [wp_bind]
      show wp _ Q E { s₁ with
        disk := (buildProposal env.opts.verifyCtx.workspaceRoot call s₁.disk).2
        count.gateRuns := s₁.count.gateRuns + 1
        log := .gate prop (Verify.runAll checkers s₁.count.gateRuns env.opts.verifyCtx prop) ::
          s₁.log }
      have gated : Extends CheckEv (.toolBegin call :: s₀.log)
          (.gate prop (Verify.runAll checkers s₁.count.gateRuns env.opts.verifyCtx prop) ::
            s₁.log) :=
        .cons trivial (early.mono fun _ => checkEv_of_moveEv)
      split
      · rw [wp_bind]
        refine wp_gateFeedback env verifying fun text s₂ same state moves => ?_
        exact refused _ _ ⟨untouched.trans ⟨same.messages, same.tokensUsed, same.ec, same.cancel⟩,
          .inr (.inl state), rfl, gated.trans (moves.mono fun _ => checkEv_of_moveEv)⟩
      · next passing =>
          refine wp_applyWrite env verifying fun s₂ outcome s' moved applying dispatched => ?_
          refine applied prop s₂ outcome s' ⟨untouched.trans ?_, applying, ⟨s₁.disk, built⟩,
            s₁.count.gateRuns, s₁.log, early, moved.log, ?_⟩ dispatched
          · have same := Kept.of_calm moved
            exact ⟨same.messages, same.tokensUsed, same.ec, same.cancel⟩
          · intro r member
            simpa using List.find?_eq_none.mp passing r member

/-- **Everything a call can do.**  It is refused before it is dispatched; or its tool does
not write and it is dispatched; or its tool writes, its proposal has passed the gate, and
it is dispatched. -/
theorem wp_runTool {call : ToolCallDone} {Q : ToolOutcome → Sys P → Prop}
    {E : ε → Sys P → Prop} {s : Sys P} (tooling : Tooling s.session.state)
    (refused : ∀ outcome s', Refused call s outcome s' → Q outcome s')
    (plain : ∀ reg gate tool outcome s', env.opts.tools = some reg →
      env.opts.permission = some gate → reg.find call.name = some tool →
      tool.spec.category ≠ .write →
      Dispatched reg gate call { s with log := .toolBegin call :: s.log } outcome s' →
      Q outcome s')
    (write : ∀ reg gate checkers tool prop s₁ outcome s', env.opts.tools = some reg →
      env.opts.permission = some gate → env.opts.verify = some checkers →
      reg.find call.name = some tool → tool.spec.category = .write →
      Cleared env checkers call prop s s₁ → Dispatched reg gate call s₁ outcome s' →
      Q outcome s') :
    wp (runTool env call) Q E s := by
  have kept : Kept s { s with log := .toolBegin call :: s.log } :=
    ⟨rfl, rfl, rfl, fun set => set⟩
  have unanswered : ∀ content feedback, Q ⟨.failure call.name content, feedback⟩
      { s with log := .toolBegin call :: s.log } :=
    fun _ _ => refused _ _ ⟨kept, tooling, rfl, .refl _ _⟩
  unfold runTool
  rw [wp_bind, wp_record]
  split
  · next reg gate checkers tools permission verify =>
      split
      · exact unanswered _ _
      · next tool found =>
          rw [wp_ite]
          refine ⟨fun writes => ?_, fun reads => ?_⟩
          · exact wp_runWriteTool env tooling kept rfl refused
              fun prop s₁ outcome s' cleared dispatched => write reg gate checkers tool prop s₁
                outcome s' tools permission verify found writes cleared dispatched
          · exact wp_runPlainTool env fun outcome s' dispatched =>
              plain reg gate tool outcome s' tools permission found reads dispatched
  · exact unanswered _ _

/-! ## The calls of a reply -/

/-- The answer of a call is appended to the history. -/
structure Answered (call : ToolCallDone) (s s' : Sys P) : Prop where
  messages : ∃ id content isError created, s'.session.messages =
    s.session.messages ++ [⟨id, env.session.id, .user, [],
      [.toolResult ⟨call.id, content, isError⟩], created⟩]
  tokensUsed : s'.session.tokensUsed = s.session.tokensUsed
  ec : s'.result.ec = s.result.ec
  state : s'.session.state = s.session.state
  cancel : s'.cancel = s.cancel
  log : s'.log = s.log

theorem wp_answerCall {call : ToolCallDone} {outcome : ToolOutcome} {Q : Unit → Sys P → Prop}
    {E : ε → Sys P → Prop} {s : Sys P} (post : ∀ s', Answered env call s s' → Q () s') :
    wp (answerCall env call outcome) Q E s := by
  unfold answerCall
  rw [wp_ite]
  refine ⟨fun _ => ?_, fun _ => ?_⟩
  · exact post _ ⟨⟨_, _, _, _, rfl⟩, rfl, rfl, rfl, rfl, rfl⟩
  · exact post _ ⟨⟨_, _, _, _, rfl⟩, rfl, rfl, rfl, rfl, rfl⟩

/-- **The rule of the tool loop.**  `I rest` holds before the calls `rest`; the loop is left
at the end, at a set flag, after a tool that reports cancellation, and after repeated
feedback. -/
theorem wp_toolLoop {I : List ToolCallDone → Sys P → Prop} {Q : Sys P → Prop}
    {E : ε → Sys P → Prop} (done : ∀ s, I [] s → Q s)
    (stopped : ∀ call rest s, I (call :: rest) s → s.cancel = true →
      ∀ s', s'.books = s.books → s'.session.state = s.session.state → s'.cancel = true →
        s'.log = .dropped (call :: rest) :: .poll .tool true :: s.log → Q s')
    (step : ∀ call rest s, I (call :: rest) s → s.cancel = false →
      ∀ s₁, s₁.books = s.books → s₁.session.state = s.session.state →
        s₁.log = .poll .tool false :: s.log →
        wp (runTool env call) (fun outcome s' => ∀ s'', Answered env call s' s'' →
          (outcome.result.status = .canceled →
            Q { s'' with result.ec := cancelledFailure.ec, log := .dropped rest :: s''.log }) ∧
          (outcome.result.status ≠ .canceled → s''.abortedByFeedback = true →
            Q { s'' with log := .dropped rest :: s''.log }) ∧
          (outcome.result.status ≠ .canceled → s''.abortedByFeedback = false →
            I rest s'')) E s₁) :
    ∀ (calls : List ToolCallDone) (s : Sys P), I calls s →
      wp (toolLoop env calls) (fun _ => Q) E s := by
  intro calls
  induction calls with
  | nil =>
      intro s holds
      exact done s holds
  | cons call rest inductionHypothesis =>
      intro s holds
      unfold toolLoop
      rw [wp_bind, wp_pollCancel, wp_ite]
      refine ⟨fun seen => ?_, fun notSeen => ?_⟩
      · rw [wp_record]
        exact stopped call rest s holds seen _ rfl rfl (by simp [seen]) (by rw [seen])
      · have clear : s.cancel = false := by simpa using notSeen
        rw [wp_bind]
        refine wp_mono (step call rest s holds clear _ rfl rfl (by rw [clear]))
          (fun outcome s₁ post => ?_) (fun _ _ exited => exited)
        rw [wp_bind]
        refine wp_answerCall env fun s₂ answered => ?_
        obtain ⟨canceled, aborted, goesOn⟩ := post s₂ answered
        rw [wp_bind, wp_gets, wp_ite]
        refine ⟨fun reported => canceled reported, fun other => ?_⟩
        rw [wp_ite]
        exact ⟨fun set => aborted other set,
          fun unset => inductionHypothesis s₂ (goesOn other (by simpa using unset))⟩

/-- What the tools of a reply log. -/
def ToolEv : Ev → Prop
  | .poll site _ => site = .tool
  | .toolBegin _ | .gate _ _ | .permission _ | .execute _ _ _ _ _ | .repoRule _
  | .dropped _ => True
  | e => MoveEv e

theorem toolEv_of_checkEv {e : Ev} (check : CheckEv e) : ToolEv e := by
  cases e <;> simp only [CheckEv, MoveEv] at check
  case setState => exact check
  case emit => exact check
  case gate => trivial

theorem legal_of_toolEv {e : Ev} (inTool : ToolEv e) : Legal e := by
  cases e <;> first | trivial | exact legal_of_moveEv inTool

theorem Refused.log_toolEv {call : ToolCallDone} {outcome : ToolOutcome} {s s' : Sys P}
    (refused : Refused call s outcome s') : Extends ToolEv s.log s'.log :=
  .trans (.single trivial s.log) (refused.log.mono fun _ => toolEv_of_checkEv)

theorem Cleared.log_toolEv {checkers : Verify.Checkers} {call : ToolCallDone}
    {prop : Verify.EditProposal} {s s' : Sys P} (cleared : Cleared env checkers call prop s s') :
    Extends ToolEv s.log s'.log := by
  obtain ⟨runs, early, before, after, -⟩ := cleared.log
  have weaken : ∀ e, MoveEv e → ToolEv e := fun _ move => toolEv_of_checkEv (checkEv_of_moveEv move)
  refine Extends.trans ?_ (after.mono weaken)
  exact .cons trivial (.trans (.single trivial s.log) (before.mono weaken))

theorem Dispatched.log_toolEv {reg : Tools.ToolRegistry} {gate : Tools.Gate}
    {call : ToolCallDone} {outcome : ToolOutcome} {s s' : Sys P}
    (dispatched : Dispatched reg gate call s outcome s') : Extends ToolEv s.log s'.log := by
  obtain ⟨rules, named, log⟩ := dispatched.log
  refine ⟨rules ++ executions reg gate (invocationOf call) s ++ [.permission (invocationOf call)],
    by rw [log]; simp, ?_⟩
  intro e member
  simp only [List.mem_append, List.mem_singleton] at member
  rcases member with (inRules | executed) | rfl
  · rw [named e inRules]
    trivial
  · unfold executions at executed
    split at executed
    · rw [List.mem_singleton.mp executed]
      trivial
    · exact absurd executed List.not_mem_nil
  · trivial

/-- What the calls of a reply leave alone. -/
structure Worked (s s' : Sys P) : Prop where
  tokensUsed : s'.session.tokensUsed = s.session.tokensUsed
  cancel : s.cancel = true → s'.cancel = true
  state : Tooling s'.session.state
  ec : s'.result.ec = .success ∨ s'.result.ec.code = .eCancelled
  log : Extends ToolEv s.log s'.log

theorem runTool_spec {call : ToolCallDone} {E : ε → Sys P → Prop} {s : Sys P}
    (tooling : Tooling s.session.state) :
    wp (runTool env call) (fun _ s' => Kept s s' ∧ Tooling s'.session.state ∧
      Extends ToolEv s.log s'.log) E s := by
  refine wp_runTool env tooling ?_ ?_ ?_
  · intro outcome s' refused
    exact ⟨refused.kept, refused.state, refused.log_toolEv⟩
  · intro reg gate tool outcome s' _ _ _ _ dispatched
    have noted : Kept s { s with log := .toolBegin call :: s.log } :=
      ⟨rfl, rfl, rfl, fun set => set⟩
    refine ⟨noted.trans dispatched.kept, ?_, ?_⟩
    · rw [dispatched.state]
      exact tooling
    · exact .trans (.single trivial s.log) dispatched.log_toolEv
  · intro reg gate checkers tool prop s₁ outcome s' _ _ _ _ _ cleared dispatched
    refine ⟨cleared.kept.trans dispatched.kept, ?_, cleared.log_toolEv.trans dispatched.log_toolEv⟩
    rw [dispatched.state]
    exact .inr (.inr cleared.state)

theorem toolLoop_spec (calls : List ToolCallDone) {E : ε → Sys P → Prop} {s : Sys P}
    (tooling : Tooling s.session.state) (fine : s.result.ec = .success) :
    wp (toolLoop env calls) (fun _ s' => Worked s s') E s := by
  have start : Worked s s := ⟨rfl, fun set => set, tooling, .inl fine, .refl _ _⟩
  have polled (seen : Bool) : ToolEv (.poll .tool seen) := rfl
  refine wp_toolLoop env (I := fun _ s' => Worked s s' ∧ s'.result.ec = .success) ?_ ?_ ?_
    calls s ⟨start, fine⟩
  · intro s' holds
    exact holds.1
  · intro call rest s' holds _ s'' books state cancel log
    obtain ⟨worked, success⟩ := holds
    refine ⟨(congrArg Books.tokensUsed books).trans worked.tokensUsed, fun _ => cancel,
      state.symm ▸ worked.state, .inl ?_, worked.log.trans ?_⟩
    · exact (congrArg (DriveResult.ec ∘ Books.result) books).trans success
    · rw [log]
      exact .cons trivial (.single (polled true) s'.log)
  · intro call rest s' holds clear s₁ books state log
    obtain ⟨worked, success⟩ := holds
    refine wp_mono (runTool_spec env (state.symm ▸ worked.state)) (fun outcome s₂ ran => ?_)
      (fun _ _ exited => exited)
    intro s₃ answered
    obtain ⟨kept, tooling₂, ext⟩ := ran
    have ec : s₃.result.ec = .success :=
      answered.ec.trans (kept.ec.trans
        ((congrArg (DriveResult.ec ∘ Books.result) books).trans success))
    have reached : Worked s s₃ := by
      refine ⟨?_, ?_, answered.state.symm ▸ tooling₂, .inl ec, worked.log.trans ?_⟩
      · exact answered.tokensUsed.trans (kept.tokensUsed.trans
          ((congrArg Books.tokensUsed books).trans worked.tokensUsed))
      · intro set
        rw [worked.cancel set] at clear
        cases clear
      · rw [answered.log]
        exact .trans (log ▸ .single (polled false) s'.log) ext
    refine ⟨fun _ => ?_, fun _ _ => ?_, fun _ _ => ⟨reached, ec⟩⟩
    · exact ⟨reached.tokensUsed, reached.cancel, reached.state, .inr rfl, .cons trivial reached.log⟩
    · exact ⟨reached.tokensUsed, reached.cancel, reached.state, .inl ec, .cons trivial reached.log⟩

end Opencodepp.Agent
