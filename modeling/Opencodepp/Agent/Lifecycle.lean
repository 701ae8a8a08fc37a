import Opencodepp.Agent.Scripted
import Opencodepp.Agent.ToolPhase

/-!
# The life cycle of a drive

Over any number of rounds, retries and tools: in which state a drive ends, whether the
transitions it asks for are in the table, and when the next drive on the session starts.
All three follow from one invariant of the rounds, `Going`: the session rests in a state a
round may start in, nothing has gone wrong yet, and no request to end the task was dropped.
-/

set_option autoImplicit false

namespace Opencodepp.Agent

open Opencodepp.Core
open Opencodepp.Library
open Opencodepp.Library.Program
open Opencodepp.Library.Trace
open Opencodepp.Msg
open Opencodepp.Provider

variable {P : Provider} (env : Env)

/-! ## The invariant -/

/-- No request to end the task was dropped. -/
def EndsHeld (log : List Ev) : Prop :=
  ∀ source target, .setState source target ∈ log → isTerminal target = true →
    validTransition source target = true

theorem EndsHeld.extend {A : Ev → Prop} {past now : List Ev} (held : EndsHeld past)
    (ext : Extends A past now)
    (new : ∀ source target, A (.setState source target) → isTerminal target = true →
      validTransition source target = true) : EndsHeld now := by
  intro source target member terminal
  rcases ext.mem_or member with inPast | inNew
  · exact held source target inPast terminal
  · exact new source target inNew terminal

/-- The log so far: no end was dropped, and it is lawful unless an attempt was started
while streaming. -/
structure Ordered (log : List Ev) : Prop where
  ends : EndsHeld log
  lawful : Retried log ∨ Lawful log

/-- Entries that are legal, and do not end the task unless the table allows it. -/
theorem Ordered.extend {A : Ev → Prop} {past now : List Ev} (ordered : Ordered past)
    (ext : Extends A past now) (legal : ∀ e, A e → Legal e) : Ordered now where
  ends := ordered.ends.extend ext fun _ _ new _ => legal _ new
  lawful := ordered.lawful.imp (fun retried => retried.extend ext) (Lawful.extend ext legal)

theorem Ordered.cons {e : Ev} {past : List Ev} (ordered : Ordered past) (legal : Legal e) :
    Ordered (e :: past) :=
  ordered.extend (Extends.single legal past) fun _ legal => legal

theorem Ordered.called {tools : List ToolSpec} {made : Nat} {s s' : Sys P}
    (ordered : Ordered s.log) (called : Called tools made s s') : Ordered s'.log where
  ends := ordered.ends.extend called.calm.log fun _ _ new terminal => by
    simp only [NetEv] at new
    rw [new] at terminal
    cases terminal
  lawful := by
    rcases called.steered with retried | kept
    · exact .inl retried
    · exact ordered.lawful.imp (fun retried => retried.extend called.calm.log) kept

/-- A drive between two rounds. -/
structure Going (s : Sys P) : Prop where
  resting : Resting s.session.state
  ec : s.result.ec = .success
  ordered : Ordered s.log

/-- A drive whose rounds are over: concluded, or in a state of a running task. -/
structure Over (s : Sys P) : Prop where
  state : s.session.state = .done ∧ s.result.ec = .success ∨
    isTerminal s.session.state = false ∧ s.session.state ≠ .idle
  ordered : Ordered s.log

theorem Over.of_underway {s : Sys P} (underway : Underway s.session.state)
    (ordered : Ordered s.log) : Over s where
  state := .inr (by rcases underway with same | same | same <;> rw [same] <;> decide)
  ordered := ordered

theorem Over.of_tooling {s : Sys P} (tooling : Tooling s.session.state)
    (ordered : Ordered s.log) : Over s where
  state := .inr (by rcases tooling with same | same | same <;> rw [same] <;> decide)
  ordered := ordered

/-- **One round keeps the invariant.** -/
theorem round_going (plan : IntentPlan) {s : Sys P} (going : Going s) :
    wp (round env plan) (fun _ => Going) (fun _ => Over) s := by
  refine wp_round env going.resting ?_ ?_ ?_
  · intro _ s' _ state log
    refine ⟨.inr ?_, ?_⟩
    · rw [state]
      rcases going.resting with same | same | same | same <;> rw [same] <;> decide
    · rw [log]
      exact going.ordered.cons trivial
  · intro _ s' e prepared
    exact .of_underway (.inl prepared.state)
      (going.ordered.extend prepared.calm.log fun _ => legal_of_frontEv)
  · intro _ s₁ budget prepared _ _
    have ordered₁ := going.ordered.extend prepared.calm.log fun _ => legal_of_frontEv
    refine wp_mono (oneRound_spec env _ budget (.inl prepared.state))
      (fun _ s₂ answered => ?_) (fun e s₂ called => ?_)
    · have ordered₂ := ordered₁.called answered.1
      have ordered₃ : Ordered (s₂.replied env).log := ordered₂.cons trivial
      have ec : (s₂.replied env).result.ec = .success := by
        show s₂.result.ec = .success
        rw [answered.1.calm.result, prepared.calm.result, going.ec]
      refine wp_settleReply env answered.2 ?_ ?_ ?_
      · intro _
        exact .of_underway (.inr (.inr answered.2)) (ordered₃.cons trivial)
      · intro _ s₃ calm done
        refine ⟨.inl ⟨done, ?_⟩, ordered₃.extend calm.log fun e ending => ?_⟩
        · rw [calm.result]
          exact ec
        · cases e <;> simp only [EndEv] at ending
          case setState => exact ending.1
          case emit =>
              refine expected_of_none ?_
              rw [ending]
              decide
      · intro s₃ calm toolPhase
        have ordered₄ := ordered₃.extend calm.log fun _ => legal_of_moveEv
        have ec₃ : s₃.result.ec = .success := by rw [calm.result, ec]
        refine wp_mono (toolLoop_spec env _ (.inl toolPhase) ec₃) (fun _ s₄ worked => ?_)
          (fun _ _ failed => failed)
        intro s₅ quiet
        have ordered₅ := (ordered₄.extend worked.log fun _ => legal_of_toolEv).extend quiet.log
          fun _ reports => legal_of_moveEv
            (moveEv_of_reports (by decide) (expected_of_none (by decide)) reports)
        have tooling : Tooling s₅.session.state := quiet.state.symm ▸ worked.state
        refine ⟨fun _ => .of_tooling tooling ordered₅, fun _ _ => .of_tooling tooling ordered₅,
          fun other _ => ⟨.inr tooling, ?_, ordered₅⟩⟩
        have same : s₅.result.ec = s₄.result.ec :=
          congrArg (DriveResult.ec ∘ Books.result) quiet.books
        rcases worked.ec with success | cancelled
        · rw [same, success]
        · exact absurd (same ▸ cancelled) other
    · have ordered₂ : Ordered s₂.log := ordered₁.called called
      exact .of_underway called.underway ordered₂

/-! ## The end of a drive -/

theorem ending_terminal (code : Err) : isTerminal (ending code).1 = true := by
  unfold ending
  split
  · rfl
  · split <;> rfl

theorem ending_done (code : Err) : (ending code).1 = .done ↔ code = .ok := by
  cases code <;> decide

theorem ending_cancelled (code : Err) : (ending code).1 = .cancelled ↔ code = .eCancelled := by
  cases code <;> decide

theorem ending_error (code : Err) :
    (ending code).1 = .error ↔ code ≠ .ok ∧ code ≠ .eCancelled := by
  cases code <;> decide

/-- A state of a running task may be left for every end. -/
theorem valid_ending {state target : AgentState} (running : isTerminal state = false)
    (busy : state ≠ .idle) (terminal : isTerminal target = true) :
    validTransition state target = true := by
  cases state <;> cases target <;> first | rfl | contradiction

/-- When the rounds are over the end that belongs to the result is reached. -/
theorem Over.finish {s s' : Sys P} (ended : Over s) (finished : Finished s s') :
    s'.session.state = (ending s'.result.ec.code).1 ∧ Ordered s'.log := by
  have terminal := ending_terminal s.result.ec.code
  have legal : ∀ e, FinishEv s.session.state s.result.ec.code e → Legal e := by
    intro e final
    cases e <;> simp only [FinishEv] at final <;> try trivial
    case setState =>
        obtain ⟨rfl, rfl, open_⟩ := final
        rcases ended.state with ⟨done, success⟩ | ⟨running, busy⟩
        · exact absurd done (open_ (by rw [success]; rfl))
        · exact valid_ending running busy terminal
    case emit =>
        refine expected_of_none ?_
        rcases final with same | same <;> rw [same]
        · decide
        · cases s.result.ec.code <;> decide
  refine ⟨?_, ended.ordered.extend finished.log legal⟩
  rw [finished.state, finished.ec]
  rcases ended.state with ⟨done, success⟩ | ⟨running, busy⟩
  · rw [done, success]
    rfl
  · exact nextState_of_valid (valid_ending running busy terminal)

/-- What a call of drive ends with: refused, cancelled before it began, or finished in the
state that belongs to its result. -/
inductive Outcome (s : Sys P) (r : DriveResult) (s' : Sys P) : Prop
  | busy (state : s.reset.session.state ≠ .idle) (same : s'.session.state = s.reset.session.state)
      (log : s'.log = s.reset.log)
  | cancelled (flag : s.cancel = true) (state : s'.session.state = .idle)
  | finished (state : s'.session.state = (ending r.ec.code).1)

/-- The reset of a finished task is lawful, unless the task was done. -/
theorem ordered_reset {s : Sys P} (notDone : s.session.state ≠ .done) :
    Ordered s.opened.reset.log := by
  have empty : Ordered ([] : List Ev) :=
    ⟨fun _ _ member => absurd member List.not_mem_nil,
      .inr fun _ member => absurd member List.not_mem_nil⟩
  unfold Sys.reset
  split
  · next terminal =>
      refine empty.cons ?_
      show validTransition s.session.state .idle = true
      have ended : isTerminal s.session.state = true := terminal
      cases state : s.session.state <;> rw [state] at ended notDone <;>
        first | rfl | contradiction
  · exact empty

/-- A session that was reset to idle was not done. -/
theorem not_done_of_reset {s : Sys P} (idle : s.opened.reset.session.state = .idle) :
    s.session.state ≠ .done := by
  intro done
  have stuck : s.opened.reset.session.state = .done := by
    unfold Sys.reset
    show (if isTerminal s.session.state then _ else _ : Sys P).session.state = .done
    rw [done]
    show nextState s.session.state .idle = .done
    rw [done]
    rfl
  rw [stuck] at idle
  cases idle

/-- The first round of a drive starts in the invariant. -/
theorem begun_going {input : Bytes} {s s' : Sys P}
    (idle : s.opened.reset.session.state = .idle) (begun : Begun env input s.opened.reset s') :
    Going s' := by
  have fresh := ordered_reset (not_done_of_reset idle)
  refine ⟨.inl begun.state, ?_, fresh.extend begun.log fun e start => ?_⟩
  · have blank : s.opened.reset.result = .blank := by
      unfold Sys.reset
      split <;> rfl
    rw [begun.result, blank]
    rfl
  · cases e <;> first | trivial | exact legal_of_moveEv start

/-- **Every drive**, looked at after any number of rounds. -/
theorem drive_outcome (fuel : Nat) (input : Bytes) (s : Sys P) :
    (∀ r, (drive env fuel input s).1 = some r →
      Outcome s.opened r (drive env fuel input s).2) ∧
    (s.session.state ≠ .done → Ordered (drive env fuel input s).2.log) := by
  refine drive_rule env (I := Going) (E := Over)
    (F := fun returned s' => (∀ r, returned = some r → Outcome s.opened r s') ∧
      (s.session.state ≠ .done → Ordered s'.log)) ?_ ?_ ?_ ?_ fuel
  · refine wp_beginDrive env ?_ ?_ ?_
    · intro state
      exact ⟨fun _ _ => .busy state rfl rfl, fun notDone => ordered_reset notDone⟩
    · intro _ flag s' _ idle log
      refine ⟨fun _ _ => .cancelled flag idle, fun notDone => ?_⟩
      rw [log]
      exact (ordered_reset notDone).cons trivial
    · intro idle _ s' begun
      exact ⟨rfl, begun_going env idle begun⟩
  · intro s' going
    exact round_going env _ going
  · intro s' going
    exact ⟨fun _ impossible => (by cases impossible), fun _ => going.ordered⟩
  · intro s' ended
    refine wp_mono (finishDrive_spec env (E := fun _ _ => False) _) (fun _ s'' finished => ?_)
      (fun _ _ impossible => impossible)
    obtain ⟨state, ordered⟩ := ended.finish finished
    refine ⟨fun r returned => ?_, fun _ => ordered⟩
    cases returned
    exact .finished state

/-- **A drive ends in the state that belongs to its result.**  Started idle and not
cancelled, it ends in a terminal state, which is done exactly on success, cancelled exactly
when the result says so, and error otherwise; no end it asked for was dropped. -/
theorem drive_ends_as_its_result (fuel : Nat) (input : Bytes) (s : Sys P)
    (idle : s.session.state = .idle) (clear : s.cancel = false) (r : DriveResult)
    (returned : (drive env fuel input s).1 = some r) :
    isTerminal (drive env fuel input s).2.session.state = true ∧
    ((drive env fuel input s).2.session.state = .done ↔ r.ec.code = .ok) ∧
    ((drive env fuel input s).2.session.state = .cancelled ↔ r.ec.code = .eCancelled) ∧
    ((drive env fuel input s).2.session.state = .error ↔
      r.ec.code ≠ .ok ∧ r.ec.code ≠ .eCancelled) ∧
    EndsHeld (drive env fuel input s).2.log := by
  have unreset : s.opened.reset = s.opened := by
    unfold Sys.reset
    rw [if_neg]
    show ¬isTerminal s.session.state = true
    rw [idle]
    decide
  obtain ⟨outcome, ordered⟩ := drive_outcome env fuel input s
  have ends := (ordered (by rw [idle]; decide)).ends
  cases outcome r returned with
  | busy state same log =>
      rw [unreset] at state
      exact absurd idle state
  | cancelled flag state =>
      have set : s.cancel = true := flag
      rw [clear] at set
      cases set
  | finished state =>
      rw [state]
      exact ⟨ending_terminal _, ending_done _, ending_cancelled _, ending_error _, ends⟩

theorem drive_ends_as_its_result_hello :
    isTerminal (drive (scriptedEnv .empty [textReply "hi"] []) 3 (str "explain x")
      scriptedStart).2.session.state = true :=
  (drive_ends_as_its_result (scriptedEnv .empty [textReply "hi"] []) 3 (str "explain x")
    scriptedStart rfl rfl ⟨.success, str "hi", [], [], 7, 1⟩ (by decide +kernel)).1

/-! ## Lawful drives -/

/-- **A drive is lawful when it never retries out of a stream.**  Unless it is started on a
session that is done, or starts an attempt while still streaming, every transition it asks
for is in the table, and every connect, verify and apply event carries its state. -/
theorem drive_lawful_of_no_retry_while_streaming (fuel : Nat) (input : Bytes) (s : Sys P)
    (notDone : s.session.state ≠ .done)
    (noRetry : ¬Retried (drive env fuel input s).2.log) :
    ∀ e ∈ (drive env fuel input s).2.log, Legal e := by
  rcases ((drive_outcome env fuel input s).2 notDone).lawful with retried | lawful
  · exact absurd retried noRetry
  · exact lawful

theorem drive_lawful_of_no_retry_while_streaming_hello :
    scriptedStart.session.state ≠ .done ∧
    ∀ e ∈ (drive (scriptedEnv .empty [textReply "hi"] []) 3 (str "explain x")
      scriptedStart).2.log, Legal e :=
  ⟨by decide, drive_lawful_of_no_retry_while_streaming (scriptedEnv .empty [textReply "hi"] []) 3
    (str "explain x") scriptedStart (by decide) (by decide +kernel)⟩

/-- A retry after a lost stream asks for connecting while streaming, and reports the
connection from the wrong state. -/
theorem drive_unlawful_after_lost_stream :
    ¬ ∀ e ∈ (drive (scriptedEnv .empty [lostStream, textReply "hi"] []) 3 (str "explain x")
      scriptedStart).2.log, Legal e := by
  decide +kernel

/-! ## Calls one after the other -/

/-- A call of drive that has returned. -/
structure Call (P : Provider) where
  before : Sys P
  input : Bytes
  result : DriveResult
  after : Sys P

/-- A new agent takes over the session. -/
def Sys.handedOver (s : Sys P) : Sys P :=
  { s with cancel := false, feedbackSeen := [], abortedByFeedback := false, userInput := [] }

/-- The calls made on one session by one agent after the other, newest first, and the
system after them. -/
inductive Calls (env : Env) (disk : Disk) : List (Call P) → Sys P → Prop
  | fresh : Calls env disk [] (.fresh P disk)
  | call {past : List (Call P)} {s s' : Sys P} {fuel : Nat} {input : Bytes} {r : DriveResult}
      (earlier : Calls env disk past s) (returned : drive env fuel input s = (some r, s')) :
      Calls env disk (⟨s, input, r, s'⟩ :: past) s'
  | agent {past : List (Call P)} {s : Sys P} (earlier : Calls env disk past s) :
      Calls env disk past s.handedOver

/-- The call was turned away as busy. -/
def Call.Rejected (call : Call P) : Prop :=
  (beginDrive env call.input call.before.opened).1 = .error (.of .eBusy)

/-- The call went on to its rounds. -/
def Call.Runs (call : Call P) : Prop :=
  (beginDrive env call.input call.before.opened).1 = .ok (classifyIntent call.input)

/-- The states a session is in between two calls. -/
def AtRest (state : AgentState) : Prop := state = .idle ∨ isTerminal state = true

theorem reset_state {s : Sys P} (rest : AtRest s.session.state) :
    s.opened.reset.session.state = if s.session.state = .done then .done else .idle := by
  have unfolded : s.opened.reset.session.state =
      if isTerminal s.session.state then nextState s.session.state .idle
      else s.session.state := by
    unfold Sys.reset
    show (if isTerminal s.session.state then _ else _ : Sys P).session.state = _
    split <;> rfl
  rw [unfolded]
  rcases rest with idle | terminal
  · rw [idle]
    decide
  · cases state : s.session.state <;> rw [state] at terminal <;> first | contradiction | decide

theorem Calls.atRest {disk : Disk} {calls : List (Call P)} {s : Sys P}
    (run : Calls env disk calls s) : AtRest s.session.state := by
  induction run with
  | fresh => exact .inl rfl
  | @call past s s' fuel input r earlier returned inductionHypothesis =>
      have outcome := (drive_outcome env fuel input s).1 r (by rw [returned])
      rw [returned] at outcome
      cases outcome with
      | busy state same log =>
          rw [reset_state inductionHypothesis] at state same
          rw [same]
          split
          · exact .inr rfl
          · exact .inl rfl
      | cancelled flag idle => exact .inl idle
      | finished state =>
          rw [state]
          exact .inr (ending_terminal _)
  | agent _ inductionHypothesis => exact inductionHypothesis

theorem Calls.before_atRest {disk : Disk} {calls : List (Call P)} {s : Sys P}
    (run : Calls env disk calls s) {call : Call P} (member : call ∈ calls) :
    AtRest call.before.session.state := by
  induction run with
  | fresh => exact absurd member List.not_mem_nil
  | call earlier returned inductionHypothesis =>
      rcases List.mem_cons.mp member with rfl | older
      · exact earlier.atRest
      · exact inductionHypothesis older
  | agent _ inductionHypothesis => exact inductionHypothesis member

/-- A call on a session at rest is turned away when the session is done, and runs
otherwise. -/
theorem call_begins {call : Call P} (rest : AtRest call.before.session.state)
    (clear : call.before.cancel = false) :
    wp (beginDrive env call.input)
      (fun plan _ => plan = classifyIntent call.input ∧ call.before.session.state ≠ .done)
      (fun e _ => e = .of .eBusy ∧ call.before.session.state = .done) call.before.opened := by
  have reset := reset_state rest
  refine wp_beginDrive env ?_ ?_ ?_
  · intro busy
    refine ⟨rfl, ?_⟩
    by_contra notDone
    rw [if_neg notDone] at reset
    exact busy reset
  · intro _ flag
    have set : call.before.cancel = true := flag
    rw [clear] at set
    cases set
  · intro idle _ s' _
    exact ⟨rfl, not_done_of_reset idle⟩

/-- **Every call runs exactly when none is made on a session that is done.** -/
theorem calls_run_iff_none_starts_done {disk : Disk} {calls : List (Call P)} {s : Sys P}
    (run : Calls env disk calls s) (clear : ∀ call ∈ calls, call.before.cancel = false) :
    (∀ call ∈ calls, ¬call.Rejected env ∧ call.Runs env) ↔
      ∀ call ∈ calls, call.before.session.state ≠ .done := by
  refine forall₂_congr fun call member => ?_
  have begins := call_begins env (run.before_atRest env member) (clear call member)
  unfold Call.Rejected Call.Runs
  rcases start : beginDrive env call.input call.before.opened with ⟨e | plan, s'⟩
  · obtain ⟨rfl, done⟩ := wp_of_exits begins start
    simp [done]
  · obtain ⟨rfl, notDone⟩ := wp_of_returns begins start
    simp [notDone]

/-- The calls of a scripted agent. -/
def scriptedCall (env : Env) (s : Sys factory) : Call factory :=
  ⟨s, str "explain x", ((drive env 3 (str "explain x") s).1).getD .blank,
    (drive env 3 (str "explain x") s).2⟩

theorem Calls.scripted {env : Env} {disk : Disk} {past : List (Call factory)}
    {s : Sys factory} (earlier : Calls env disk past s)
    (returns : (drive env 3 (str "explain x") s).1.isSome = true) :
    Calls env disk (scriptedCall env s :: past) (drive env 3 (str "explain x") s).2 := by
  refine .call earlier (Prod.ext ?_ rfl)
  obtain ⟨r, returned⟩ := Option.isSome_iff_exists.mp returns
  simp [returned]

/-- A provider that turns the key down at first and answers from then on. -/
def lateKeyEnv : Env :=
  scriptedEnv .empty [⟨.ok (), .ok (), [.ok (2 ^ 20)], [.head 401], [], .ok ()⟩] []

/-- After a task that failed, the next one runs. -/
theorem calls_run_after_failure :
    (drive lateKeyEnv 3 (str "explain x") scriptedStart).2.session.state = .error ∧
    ∀ call ∈ [scriptedCall lateKeyEnv (drive lateKeyEnv 3 (str "explain x") scriptedStart).2,
      scriptedCall lateKeyEnv scriptedStart],
      ¬call.Rejected lateKeyEnv ∧ call.Runs lateKeyEnv := by
  obtain ⟨first, second, failed, uncancelled⟩ :
      (drive lateKeyEnv 3 (str "explain x") scriptedStart).1.isSome = true ∧
      (drive lateKeyEnv 3 (str "explain x")
        (drive lateKeyEnv 3 (str "explain x") scriptedStart).2).1.isSome = true ∧
      (drive lateKeyEnv 3 (str "explain x") scriptedStart).2.session.state = .error ∧
      (drive lateKeyEnv 3 (str "explain x") scriptedStart).2.cancel = false := by
    decide +kernel
  have start : Calls lateKeyEnv scriptedDisk [] scriptedStart := .fresh
  have run := (start.scripted first).scripted second
  refine ⟨failed, (calls_run_iff_none_starts_done lateKeyEnv run ?_).mpr ?_⟩
  · simp only [scriptedCall, List.forall_mem_cons]
    exact ⟨uncancelled, rfl, fun _ member => absurd member List.not_mem_nil⟩
  · simp only [scriptedCall, List.forall_mem_cons, failed]
    exact ⟨by decide, by decide, fun _ member => absurd member List.not_mem_nil⟩

/-- After a task that is done, the next one is turned away. -/
theorem call_rejected_after_done :
    ¬ ∀ (calls : List (Call factory)) (s : Sys factory),
      Calls (scriptedEnv .empty [] []) scriptedDisk calls s →
      (∀ call ∈ calls, call.before.cancel = false) →
      ∀ call ∈ calls, ¬call.Rejected (scriptedEnv .empty [] []) := by
  intro claim
  let env := scriptedEnv .empty [] []
  -- all that is asked of the two drives, in one evaluation
  obtain ⟨first, second, uncancelled, rejected⟩ :
      (drive env 3 (str "explain x") scriptedStart).1.isSome = true ∧
      (drive env 3 (str "explain x")
        (drive env 3 (str "explain x") scriptedStart).2).1.isSome = true ∧
      (drive env 3 (str "explain x") scriptedStart).2.cancel = false ∧
      (scriptedCall env (drive env 3 (str "explain x") scriptedStart).2).Rejected env := by
    unfold Call.Rejected
    decide +kernel
  have start : Calls env scriptedDisk [] scriptedStart := .fresh
  have run := (start.scripted first).scripted second
  refine claim _ _ run ?_ _ (List.mem_cons_self ..) rejected
  simp only [scriptedCall, List.forall_mem_cons]
  exact ⟨uncancelled, rfl, fun _ member => absurd member List.not_mem_nil⟩

end Opencodepp.Agent
