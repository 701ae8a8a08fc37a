import Opencodepp.Agent.Frame

/-!
# The network part of a round

One specification for each function between the round and the wire: what an attempt, a
pass of the retry loop and the whole call of the provider may log, and in which state they
end.  The retry loop has its own rule, `wp_retryLoop`, in which the bound of the loop does
not appear: the policy never asks for more attempts than the loop is given.
-/

set_option autoImplicit false

namespace Opencodepp.Agent

open Opencodepp.Core
open Opencodepp.Library
open Opencodepp.Library.Program
open Opencodepp.Library.Trace
open Opencodepp.Msg
open Opencodepp.Provider

variable {P : Provider} {ε : Type} (env : Env)

/-! ## Lawful logs -/

/-- The state an event of a phase is expected to carry. -/
def expectedState (phase : Bytes) : Option AgentState :=
  if phase = str "connect" then some .connecting
  else if phase = str "verify" then some .verifying
  else if phase = str "apply" then some .applying
  else none

/-- A phase that stands for no state fits every state. -/
theorem expected_of_none {phase : Bytes} {state : AgentState} (free : expectedState phase = none) :
    ∀ target, expectedState phase = some target → state = target := by
  intro target found
  rw [free] at found
  cases found

/-- A requested transition is in the table; a reported state is the one its phase stands for. -/
def Legal : Ev → Prop
  | .setState source target => validTransition source target = true
  | .emit event => ∀ state, expectedState event.phase = some state → event.state = state
  | _ => True

instance : DecidablePred Legal
  | .setState source target => inferInstanceAs (Decidable (validTransition source target = true))
  | .emit event => decidable_of_iff
      ((expectedState event.phase).all (· = event.state)) (by
        cases found : expectedState event.phase <;> simp [Legal, found, eq_comm])
  | .poll _ _ | .plan _ _ | .attempt _ _ | .request _ _ | .reply _ _ | .toolBegin _ | .gate _ _
  | .permission _ | .execute _ _ _ _ _ | .dropped _ | .lesson _ _ | .repoRule _ => .isTrue trivial

def Lawful (log : List Ev) : Prop := ∀ e ∈ log, Legal e

instance (log : List Ev) : Decidable (Lawful log) :=
  inferInstanceAs (Decidable (∀ e ∈ log, Legal e))

theorem Lawful.extend {A : Ev → Prop} {past now : List Ev} (ext : Extends A past now)
    (legal : ∀ e, A e → Legal e) (lawful : Lawful past) : Lawful now := by
  intro e member
  rcases ext.mem_or member with inPast | new
  · exact lawful e inPast
  · exact legal e new

/-! ## Classes of entries -/

/-- The polls inside a call of the provider. -/
def PollSite.inner : PollSite → Bool
  | .attempt | .call | .send | .read | .feed | .backoff => true
  | .entry | .roundTop | .tool => false

/-- Polls inside a call, and reports of one phase. -/
def Speaks (phase : String) : AgentState → Ev → Prop
  | _, .poll site _ => site.inner = true
  | state, .emit event => event.state = state ∧ event.phase = str phase
  | _, _ => False

/-- The states a call of the provider passes through. -/
def Underway (state : AgentState) : Prop :=
  state = .preparing ∨ state = .connecting ∨ state = .streaming

instance : DecidablePred Underway := fun _ => inferInstanceAs (Decidable (_ ∨ _ ∨ _))

/-- What one attempt logs, when it is started in the state `start`. -/
def AttemptEv (start : AgentState) (msgs : List Message) (tools : List ToolSpec) : Ev → Prop
  | .poll site _ => site.inner = true
  | .setState source target =>
      isTerminal target = false ∧ (start ≠ .streaming → validTransition source target = true)
  | .emit event =>
      event.phase ≠ str "done" ∧ (start ≠ .streaming → Legal (.emit event))
  | .request m t => m = msgs ∧ t = tools
  | _ => False

theorem attemptEv_of_speaks {start state : AgentState} {msgs : List Message}
    {tools : List ToolSpec} {phase : String} (notDone : str phase ≠ str "done")
    (legal : start ≠ .streaming → ∀ expected, expectedState (str phase) = some expected →
      state = expected) {e : Ev} (spoken : Speaks phase state e) : AttemptEv start msgs tools e := by
  cases e <;> simp only [Speaks] at spoken
  case poll => exact spoken
  case emit event =>
      obtain ⟨carries, named⟩ := spoken
      refine ⟨named ▸ notDone, fun fresh expected found => ?_⟩
      rw [named] at found
      rw [carries]
      exact legal fresh expected found

theorem attemptEv_of_speaks_stream {start state : AgentState} {msgs : List Message}
    {tools : List ToolSpec} {e : Ev} (spoken : Speaks "stream" state e) :
    AttemptEv start msgs tools e :=
  attemptEv_of_speaks (by decide) (fun _ => expected_of_none (by decide)) spoken

/-! ## One attempt -/

section Attempt

theorem quiet_sendAll (phase : String) : ∀ (outcomes : List (Except Failure Nat)) (remaining : Nat),
    Within (Quiet (Speaks phase)) (sendAll env outcomes remaining : Program (Sys P) Failure Unit) := by
  have framing := Quiet.framing (P := P) (Speaks phase)
  intro outcomes
  induction outcomes with
  | nil =>
      intro remaining
      refine .ite (.pure framing ()) ?_
      exact .bind framing (quiet_checkCancel env fun _ _ => rfl) fun _ => .stop framing _
  | cons outcome rest inductionHypothesis =>
      intro remaining
      refine .ite (.pure framing ()) ?_
      refine .bind framing (quiet_checkCancel env fun _ _ => rfl) fun _ => ?_
      refine .bind framing (quiet_lift outcome) fun sent => ?_
      exact .bind framing (.stopIf framing _ _) fun _ => inductionHypothesis _

theorem quiet_readHead (phase : String) : ∀ reads : List HeadRead,
    Within (Quiet (Speaks phase)) (readHead env reads : Program (Sys P) Failure Nat) := by
  have framing := Quiet.framing (P := P) (Speaks phase)
  have poll : Within (Quiet (Speaks phase)) (checkCancel env .read : Program (Sys P) Failure Unit) :=
    quiet_checkCancel env fun _ _ => rfl
  intro reads
  induction reads with
  | nil => exact .bind framing poll fun _ => .stop framing _
  | cons read rest inductionHypothesis =>
      cases read with
      | fail failure => exact .bind framing poll fun _ => .stop framing _
      | eof => exact .bind framing poll fun _ => .stop framing _
      | more => exact .bind framing poll fun _ => inductionHypothesis
      | head code => exact .bind framing poll fun _ => .pure framing _

theorem quiet_drainBody (phase : String) : ∀ (steps : List BodyStep) (bodyEnd : Except Failure Unit),
    Within (Quiet (Speaks phase)) (drainBody env steps bodyEnd : Program (Sys P) Failure Unit) := by
  have framing := Quiet.framing (P := P) (Speaks phase)
  intro steps
  induction steps with
  | nil =>
      intro bodyEnd
      exact quiet_lift bodyEnd
  | cons step rest inductionHypothesis =>
      intro bodyEnd
      refine .bind framing (quiet_checkCancel env fun _ _ => rfl) fun _ => ?_
      refine .bind framing (.forEach framing quiet_deliverFrame _) fun _ => ?_
      exact .bind framing (quiet_lift _) fun _ => inductionHypothesis bodyEnd

theorem quiet_streamBody (script : Attempt) :
    Within (Quiet (Speaks "stream")) (streamBody env script : Program (Sys P) Failure Unit) := by
  have framing := Quiet.framing (P := P) (Speaks "stream")
  refine .bind framing ?_ fun _ => .bind framing (.attempt (quiet_drainBody env _ _ _)) ?_
  · exact quiet_update (fun _ => rfl) (fun _ => rfl) (fun _ => rfl) (fun _ => rfl)
  · intro drained
    cases drained with
    | error e =>
        exact .bind framing (quiet_emit env fun _ _ _ => ⟨rfl, rfl⟩) fun _ => .stop framing _
    | ok _ =>
        refine .bind framing (.gets framing _) fun parseErr => ?_
        split
        · exact .stop framing _
        · exact quiet_emit env fun _ _ _ => ⟨rfl, rfl⟩

theorem quiet_sendRequest (script : Attempt) (url : UrlParts) (req : RequestBytes) :
    Within (Quiet (Speaks "connect"))
      (sendRequest env script url req : Program (Sys P) Failure Nat) := by
  have framing := Quiet.framing (P := P) (Speaks "connect")
  have connects : Within (Quiet (Speaks "connect"))
      (connect env script : Program (Sys P) Failure Unit) := by
    refine .bind framing (quiet_lift _) fun _ => ?_
    split
    · exact .pure framing ()
    · exact .bind framing (quiet_emit env fun _ _ _ => ⟨rfl, rfl⟩) fun _ => .stop framing _
  refine .bind framing (quiet_emit env fun _ _ _ => ⟨rfl, rfl⟩) fun _ => ?_
  refine .bind framing connects fun _ => .bind framing (.gets framing _) fun _ => ?_
  refine .bind framing (quiet_lift _) fun _ => ?_
  exact .bind framing (quiet_sendAll env _ _ _) fun _ => quiet_readHead env _ _

/-- The state a request for connecting leads to. -/
theorem nextState_connecting {state : AgentState} (underway : Underway state) :
    (state ≠ .streaming → validTransition state .connecting = true ∧
      nextState state .connecting = .connecting) ∧
    Underway (nextState state .connecting) ∧
    validTransition (nextState state .connecting) .streaming = true := by
  rcases underway with rfl | rfl | rfl <;> decide

theorem receive_spec (script : Attempt) (code : Nat) (start : AgentState) (msgs : List Message)
    (tools : List ToolSpec) {s : Sys P} (underway : Underway s.session.state)
    (open_ : validTransition s.session.state .streaming = true) :
    wp (receive env script code)
      (fun _ s' => Calm (AttemptEv start msgs tools) s s' ∧ s'.session.state = .streaming)
      (fun _ s' => Calm (AttemptEv start msgs tools) s s' ∧ Underway s'.session.state) s := by
  unfold receive
  split
  · next e _ =>
      rw [wp_bind]
      refine wp_mono ((quiet_emit env (A := Speaks "stream") fun _ _ _ => ⟨rfl, rfl⟩).wp s)
        (fun _ s' quiet => ?_) (fun _ s' quiet => ?_)
      all_goals
        exact ⟨quiet.calm fun _ => attemptEv_of_speaks_stream, quiet.state.symm ▸ underway⟩
  · rw [wp_bind, wp_setState]
    have moved : Calm (AttemptEv start msgs tools) s
        { s with
          session.state := nextState s.session.state .streaming
          log := .setState s.session.state .streaming :: s.log } :=
      ⟨rfl, fun set => set, .single ⟨rfl, fun _ => open_⟩ s.log⟩
    have streams : Within (Quiet (Speaks "stream")) (do
        emit env "stream" (str "open") 0
        streamBody env script : Program (Sys P) Failure Unit) :=
      .bind (Quiet.framing _) (quiet_emit env fun _ _ _ => ⟨rfl, rfl⟩)
        fun _ => quiet_streamBody env script
    refine wp_mono (streams.wp _) (fun _ s' quiet => ?_) (fun _ s' quiet => ?_)
    all_goals have calm := moved.trans (quiet.calm fun _ => attemptEv_of_speaks_stream)
    · exact ⟨calm, quiet.state.trans (nextState_of_valid open_)⟩
    · exact ⟨calm, .inr (.inr (quiet.state.trans (nextState_of_valid open_)))⟩

theorem exchange_spec (script : Attempt) (url : UrlParts) (req : RequestBytes)
    (msgs : List Message) (tools : List ToolSpec) {s : Sys P}
    (underway : Underway s.session.state) :
    wp (exchange env script url req)
      (fun _ s' =>
        Calm (AttemptEv s.session.state msgs tools) s s' ∧ s'.session.state = .streaming)
      (fun _ s' =>
        Calm (AttemptEv s.session.state msgs tools) s s' ∧ Underway s'.session.state) s := by
  obtain ⟨fresh, stillUnderway, opens⟩ := nextState_connecting underway
  unfold exchange
  rw [wp_bind, wp_setState, wp_bind]
  have moved : Calm (AttemptEv s.session.state msgs tools) s
      { s with
        session.state := nextState s.session.state .connecting
        log := .setState s.session.state .connecting :: s.log } :=
    ⟨rfl, fun set => set, .single ⟨rfl, fun notStreaming => (fresh notStreaming).1⟩ s.log⟩
  refine wp_mono ((quiet_sendRequest env script url req).wp _)
    (fun code s' quiet => ?_) (fun e s' quiet => ?_)
  all_goals
    have sent : Calm (AttemptEv s.session.state msgs tools) s s' :=
      moved.trans (quiet.calm fun _ => attemptEv_of_speaks (by decide)
        fun notStreaming expected found => by
          rw [show expectedState (str "connect") = some .connecting by decide] at found
          cases found
          exact (fresh notStreaming).2)
    have same : s'.session.state = nextState s.session.state .connecting := quiet.state
  · refine wp_mono (receive_spec env script code s.session.state msgs tools
      (same.symm ▸ stillUnderway) (same.symm ▸ opens))
      (fun _ s'' received => ?_) (fun _ s'' received => ?_)
    · exact ⟨sent.trans received.1, received.2⟩
    · exact ⟨sent.trans received.1, received.2⟩
  · exact ⟨sent, same.symm ▸ stillUnderway⟩

/-- **One attempt.**  It leaves the books alone, passes only through the states of a call,
and is lawful when it is not started while streaming. -/
theorem streamCall_spec (msgs : List Message) (tools : List ToolSpec) (budget : Budget)
    {s : Sys P} (underway : Underway s.session.state) :
    wp (streamCall env msgs tools budget)
      (fun _ s' =>
        Calm (AttemptEv s.session.state msgs tools) s s' ∧ s'.session.state = .streaming)
      (fun _ s' =>
        Calm (AttemptEv s.session.state msgs tools) s s' ∧ Underway s'.session.state) s := by
  have framing := Quiet.framing (P := P) (Speaks "stream")
  have early {s' : Sys P} (quiet : Quiet (Speaks "stream") s s') :
      Calm (AttemptEv s.session.state msgs tools) s s' ∧ Underway s'.session.state :=
    ⟨quiet.calm fun _ => attemptEv_of_speaks_stream, quiet.state.symm ▸ underway⟩
  unfold streamCall
  rw [wp_bind]
  refine wp_mono ((quiet_nextAttempt env).wp s) (fun script s₁ begun => ?_)
    (fun _ _ quiet => early quiet)
  rw [wp_bind, wp_stopIf]
  refine ⟨fun _ => early begun, fun _ => ?_⟩
  rw [wp_bind]
  have poll : Within (Quiet (Speaks "stream"))
      (checkCancel env .call : Program (Sys P) Failure Unit) :=
    quiet_checkCancel env fun _ _ => rfl
  refine wp_mono (poll.wp s₁) (fun _ s₂ polled => ?_)
    (fun _ _ quiet => early (framing.trans begun quiet))
  have ready := early (framing.trans begun polled)
  rw [wp_bind, wp_gets]
  split
  · exact ready
  · next p _ =>
      rw [wp_bind, wp_record, wp_bind, wp_lift]
      have requested : Calm (AttemptEv s.session.state msgs tools) s
          { s₂ with log := .request msgs tools :: s₂.log } :=
        ready.1.trans ⟨rfl, fun set => set, .single ⟨rfl, rfl⟩ s₂.log⟩
      refine ⟨fun req _ => ?_, fun _ _ => ⟨requested, ready.2⟩⟩
      rw [wp_bind, wp_lift]
      refine ⟨fun url _ => ?_, fun _ _ => ⟨requested, ready.2⟩⟩
      rw [wp_bind, wp_stopIf]
      refine ⟨fun _ => ⟨requested, ready.2⟩, fun _ => ?_⟩
      have same : s₂.session.state = s.session.state := (framing.trans begun polled).state
      have exchanged := exchange_spec env script url req msgs tools
        (s := { s₂ with log := .request msgs tools :: s₂.log }) ready.2
      dsimp only at exchanged
      rw [same] at exchanged
      refine wp_mono exchanged (fun _ s' done => ?_) (fun _ s' done => ?_)
      · exact ⟨requested.trans done.1, done.2⟩
      · exact ⟨requested.trans done.1, done.2⟩

end Attempt

/-! ## The retry loop -/

theorem quiet_sleepSlices : ∀ slices : Nat,
    Within (Quiet (Speaks "backoff")) (sleepSlices env slices : Program (Sys P) ε Unit) := by
  have framing := Quiet.framing (P := P) (Speaks "backoff")
  intro slices
  induction slices with
  | zero => exact .pure framing ()
  | succ slices inductionHypothesis =>
      refine .bind framing (quiet_pollCancel env fun _ _ => rfl) fun seen => ?_
      exact .ite (.pure framing ()) inductionHypothesis

theorem quiet_backoff (decision : Net.RetryDecision) (e : Failure) :
    Within (Quiet (Speaks "backoff")) (backoff env decision e : Program (Sys P) ε Unit) := by
  have framing := Quiet.framing (P := P) (Speaks "backoff")
  refine .bind framing (quiet_setLane _) fun _ => ?_
  refine .bind framing (quiet_emit env fun _ _ _ => ⟨rfl, rfl⟩) fun _ => ?_
  exact .bind framing (quiet_sleepSlices env _) fun _ => quiet_setLane _

/-- The ways a pass goes on after its attempt.  Another attempt is only made when the
policy has one left. -/
theorem wp_judgeAttempt {attempt : Nat} {seed : UInt32} {called : Except Failure Unit}
    {Q : Option UInt32 → Sys P → Prop} {E : Failure → Sys P → Prop} {s : Sys P}
    (success : called = .ok () → Q none s)
    (failure : ∀ e, called = .error e → E e s)
    (refused : ∀ e, (∀ failure, called = .error failure → failure.ec.code ≠ .eCancelled) → E e s)
    (again : ∀ decision e seed', called = .error e → e.ec.code ≠ .eCancelled →
      attempt < maxAttempts env →
      wp (backoff env decision e) (fun _ => Q (some seed')) E s) :
    wp (judgeAttempt env attempt seed called) Q E s := by
  unfold judgeAttempt
  rw [wp_bind, wp_gets]
  cases called with
  | ok _ =>
      rw [wp_bind, wp_lift]
      refine ⟨fun _ _ => success rfl, fun e _ => refused e fun _ impossible => ?_⟩
      cases impossible
  | error e =>
      rw [wp_bind, wp_stopIf]
      refine ⟨fun _ => failure e rfl, fun notCancelled => ?_⟩
      have other : e.ec.code ≠ .eCancelled := by simpa using notCancelled
      rw [wp_bind, wp_lift]
      refine ⟨fun _ _ => ?_, fun e' _ => refused e' fun _ same => ?_⟩
      · rw [wp_bind, wp_stopIf]
        refine ⟨fun _ => failure e rfl, fun retried => ?_⟩
        have left : attempt < maxAttempts env := by
          have decided := (Net.decideRetry_retry_iff env.opts.retry seed e.ec attempt).mp
            (by simpa using retried)
          unfold maxAttempts
          omega
        rw [wp_bind]
        exact again _ e _ rfl other left
      · cases same
        exact other

/-- A pass asks for another one only when the policy has one left. -/
theorem tryOnce_some (tools : List ToolSpec) (budget : Budget) (attempt : Nat) (seed : UInt32)
    (s : Sys P) :
    wp (tryOnce env tools budget attempt seed)
      (fun next _ => next ≠ none → attempt < maxAttempts env) (fun _ _ => True) s := by
  have trivially {α : Type} (x : Program (Sys P) Failure α) (s : Sys P) :
      wp x (fun _ _ => True) (fun _ _ => True) s := by
    unfold wp
    rcases x s with ⟨_ | _, _⟩ <;> trivial
  unfold tryOnce
  rw [wp_bind]
  refine wp_mono (trivially _ s) (fun _ s₁ _ => ?_) (fun _ _ _ => trivial)
  simp only [wp_bind, wp_gets, wp_record, wp_attempt]
  have judged (called : Except Failure Unit) (s : Sys P) :
      wp (judgeAttempt env attempt seed called)
        (fun next _ => next ≠ none → attempt < maxAttempts env) (fun _ _ => True) s :=
    wp_judgeAttempt env (fun _ some_ => absurd rfl some_) (fun _ _ => trivial)
      (fun _ _ => trivial) (fun _ _ _ _ _ left =>
        wp_mono (trivially _ s) (fun _ _ _ _ => left) (fun _ _ _ => trivial))
  exact wp_mono (trivially _ _) (fun _ s' _ => judged _ s') (fun _ s' _ => judged _ s')

/-- **The rule of the retry loop.**  `I attempt` holds before the pass with that number. -/
theorem wp_retryLoop {tools : List ToolSpec} {budget : Budget} {I : Nat → Sys P → Prop}
    {Q : Sys P → Prop} {E : Failure → Sys P → Prop}
    (step : ∀ attempt seed s, attempt ≤ maxAttempts env → I attempt s →
      wp (tryOnce env tools budget attempt seed)
        (fun next s' => (next = none → Q s') ∧ (next ≠ none → I (attempt + 1) s')) E s)
    {s : Sys P} (start : I 1 s) (seed : UInt32) :
    wp (retryLoop env tools budget (maxAttempts env) 1 seed) (fun _ => Q) E s := by
  -- The passes left and the passes made add up, so the loop is never out of passes.
  have general : ∀ (left attempt : Nat) (seed : UInt32) (s : Sys P),
      attempt + left = maxAttempts env + 1 → attempt ≤ maxAttempts env → I attempt s →
        wp (retryLoop env tools budget left attempt seed) (fun _ => Q) E s := by
    intro left
    induction left with
    | zero =>
        intro attempt seed s total within
        omega
    | succ left inductionHypothesis =>
        intro attempt seed s total within holds
        unfold retryLoop
        rw [wp_bind]
        refine wp_mono
          (wp_and (step attempt seed s within holds) (tryOnce_some env tools budget attempt seed s))
          (fun next s' post => ?_) (fun _ _ post => post.1)
        obtain ⟨⟨ended, goesOn⟩, bounded⟩ := post
        cases next with
        | none => exact ended rfl
        | some seed =>
            have more := bounded (by simp)
            exact inductionHypothesis (attempt + 1) seed s' (by omega) more (goesOn (by simp))
  exact general _ 1 seed s (by omega) (by unfold maxAttempts; omega) start

/-! ## The whole call -/

/-- What a call of the provider logs. -/
def NetEv (msgs : List Message) (used : UInt64) (tools : List ToolSpec) : Ev → Prop
  | .poll site _ => site.inner = true
  | .setState _ target => isTerminal target = false
  | .emit event => event.phase ≠ str "done"
  | .attempt _ u => u = used
  | .request m t => m = msgs ∧ t = tools
  | _ => False

/-- An attempt was started while the session was still streaming. -/
def Retried (log : List Ev) : Prop := ∃ used, .attempt .streaming used ∈ log

instance (log : List Ev) : Decidable (Retried log) :=
  decidable_of_iff
    (log.any fun
      | .attempt state _ => state = .streaming
      | _ => false) (by
    rw [List.any_eq_true]
    constructor
    · rintro ⟨e, member, found⟩
      cases e <;> simp at found
      case attempt state used => exact ⟨used, found ▸ member⟩
    · rintro ⟨used, member⟩
      exact ⟨_, member, by simp⟩)

/-- The log stays lawful, unless an attempt was started while streaming. -/
def Steered (s s' : Sys P) : Prop := Retried s'.log ∨ (Lawful s.log → Lawful s'.log)

theorem steered_of_lawful {s s' : Sys P} (lawful : Lawful s.log → Lawful s'.log) :
    Steered s s' := .inr lawful

theorem Retried.extend {A : Ev → Prop} {past now : List Ev} (retried : Retried past)
    (ext : Extends A past now) : Retried now := by
  obtain ⟨used, member⟩ := retried
  exact ⟨used, ext.mem member⟩

theorem Steered.trans {A : Ev → Prop} {s s' s'' : Sys P} (first : Steered s s')
    (second : Steered s' s'') (calm : Calm A s' s'') : Steered s s'' := by
  rcases second with retried | later
  · exact .inl retried
  · rcases first with retried | earlier
    · exact .inl (retried.extend calm.log)
    · exact .inr fun lawful => later (earlier lawful)

theorem netEv_of_attemptEv {start : AgentState} {msgs : List Message} {used : UInt64}
    {tools : List ToolSpec} {e : Ev} (inAttempt : AttemptEv start msgs tools e) :
    NetEv msgs used tools e := by
  cases e <;> simp only [AttemptEv] at inAttempt
  case poll => exact inAttempt
  case setState => exact inAttempt.1
  case emit => exact inAttempt.1
  case request => exact inAttempt

theorem legal_of_attemptEv {start : AgentState} {msgs : List Message} {tools : List ToolSpec}
    (fresh : start ≠ .streaming) {e : Ev} (inAttempt : AttemptEv start msgs tools e) :
    Legal e := by
  cases e <;> simp only [AttemptEv] at inAttempt
  case poll => trivial
  case setState => exact inAttempt.2 fresh
  case emit => exact inAttempt.2 fresh
  case request => trivial

theorem netEv_of_speaks {msgs : List Message} {used : UInt64} {tools : List ToolSpec}
    {state : AgentState} {phase : String} (notDone : str phase ≠ str "done") {e : Ev}
    (spoken : Speaks phase state e) : NetEv msgs used tools e := by
  cases e <;> simp only [Speaks] at spoken
  case poll => exact spoken
  case emit => simpa only [NetEv, spoken.2] using notDone

theorem legal_of_speaks {state : AgentState} {phase : String}
    (free : expectedState (str phase) = none) {e : Ev} (spoken : Speaks phase state e) :
    Legal e := by
  cases e <;> simp only [Speaks] at spoken
  case poll => trivial
  case emit event =>
      refine expected_of_none ?_
      rw [spoken.2, free]

/-- The number of attempts in a log. -/
def attempts (log : List Ev) : Nat :=
  log.countP fun
    | .attempt _ _ => true
    | _ => false

/-- A call of the provider that is still going, after at most `made` attempts. -/
structure Called (tools : List ToolSpec) (made : Nat) (s s' : Sys P) : Prop where
  calm : Calm (NetEv s.session.messages s.session.tokensUsed tools) s s'
  steered : Steered s s'
  underway : Underway s'.session.state
  made : attempts s'.log ≤ attempts s.log + made

/-- Reports and polls between two attempts. -/
theorem Called.quiet {tools : List ToolSpec} {made : Nat} {s s' s'' : Sys P}
    (called : Called tools made s s') (quiet : Quiet (Speaks "backoff") s' s'') :
    Called tools made s s'' where
  calm := called.calm.trans (quiet.calm fun _ => netEv_of_speaks (by decide))
  steered := called.steered.trans
    (steered_of_lawful (Lawful.extend quiet.log fun _ => legal_of_speaks (by decide)))
    (quiet.calm (B := fun _ => True) fun _ _ => trivial)
  underway := quiet.state.symm ▸ called.underway
  made := by
    have same : attempts s''.log = attempts s'.log :=
      quiet.log.countP _ fun e spoken => by cases e <;> simp only [Speaks] at spoken <;> rfl
    exact same ▸ called.made

/-- One attempt, noted in the log and made. -/
theorem Called.attempt {tools : List ToolSpec} {made : Nat} {s s₁ s₂ : Sys P}
    (called : Called tools made s s₁)
    (tried : Calm (AttemptEv s₁.session.state s₁.session.messages tools)
      { s₁ with log := .attempt s₁.session.state s₁.session.tokensUsed :: s₁.log } s₂)
    (underway : Underway s₂.session.state) : Called tools (made + 1) s s₂ where
  calm := by
    rw [called.calm.messages] at tried
    have entry : NetEv s.session.messages s.session.tokensUsed tools
        (.attempt s₁.session.state s₁.session.tokensUsed) := called.calm.tokensUsed
    have noted : Calm (NetEv s.session.messages s.session.tokensUsed tools) s₁
        { s₁ with log := .attempt s₁.session.state s₁.session.tokensUsed :: s₁.log } :=
      ⟨rfl, fun set => set, .single entry s₁.log⟩
    exact (called.calm.trans noted).trans (tried.mono fun _ => netEv_of_attemptEv)
  steered := by
    by_cases streaming : s₁.session.state = .streaming
    · refine .inl ⟨s₁.session.tokensUsed, tried.log.mem ?_⟩
      rw [streaming]
      exact List.mem_cons_self ..
    · have ext : Extends Legal s₁.log s₂.log :=
        (Extends.single trivial s₁.log).trans
          (tried.log.mono fun _ => legal_of_attemptEv streaming)
      exact called.steered.trans (steered_of_lawful (Lawful.extend ext fun _ legal => legal))
        ⟨tried.books, tried.cancel, ext⟩
  underway := underway
  made := by
    have same : attempts s₂.log = attempts s₁.log + 1 :=
      (tried.log.countP _ fun e inAttempt => by
        cases e <;> simp only [AttemptEv] at inAttempt <;> rfl).trans (List.countP_cons_of_pos rfl)
    have before := called.made
    omega

/-- The attempts made stay within a larger bound. -/
theorem Called.mono {tools : List ToolSpec} {made bound : Nat} {s s' : Sys P}
    (called : Called tools made s s') (within : made ≤ bound) : Called tools bound s s' where
  calm := called.calm
  steered := called.steered
  underway := called.underway
  made := Nat.le_trans called.made (Nat.add_le_add_left within _)

theorem tryOnce_spec {tools : List ToolSpec} {made : Nat} (budget : Budget) (attempt : Nat)
    (seed : UInt32) {s₀ s : Sys P} (called : Called tools made s₀ s) :
    wp (tryOnce env tools budget attempt seed)
      (fun next s' =>
        Called tools (made + 1) s₀ s' ∧ (next = none → s'.session.state = .streaming))
      (fun _ s' => Called tools (made + 1) s₀ s') s := by
  have poll : Within (Quiet (Speaks "backoff"))
      (checkCancel env .attempt : Program (Sys P) Failure Unit) :=
    quiet_checkCancel env fun _ _ => rfl
  unfold tryOnce
  rw [wp_bind]
  refine wp_mono (poll.wp s) (fun _ s₁ quiet => ?_)
    (fun _ _ quiet => (called.quiet quiet).mono (Nat.le_succ made))
  have ready := called.quiet quiet
  simp only [wp_bind, wp_gets, wp_record, wp_attempt]
  refine wp_mono (streamCall_spec env s₁.session.messages tools budget ready.underway)
    (fun _ s₂ tried => ?_) (fun e s₂ tried => ?_)
  · have reached := ready.attempt tried.1 (.inr (.inr tried.2))
    exact wp_judgeAttempt env (fun _ => ⟨reached, fun _ => tried.2⟩) (fun _ _ => reached)
      (fun _ _ => reached) (fun _ _ _ impossible => by cases impossible)
  · have reached := ready.attempt tried.1 tried.2
    refine wp_judgeAttempt env (fun impossible => by cases impossible) (fun _ _ => reached)
      (fun _ _ => reached) (fun decision e _ _ _ _ => ?_)
    refine wp_mono ((quiet_backoff env decision e).wp s₂) (fun _ s₃ quiet => ?_)
      (fun _ _ quiet => reached.quiet quiet)
    exact ⟨reached.quiet quiet, fun impossible => by cases impossible⟩

theorem quiet_openRequest (p : P.State) :
    Within (Quiet (Speaks "backoff")) (openRequest env p : Program (Sys P) ε Unit) := by
  have framing := Quiet.framing (P := P) (Speaks "backoff")
  refine .bind framing ?_ fun _ => .bind framing (quiet_beginRequest env) fun _ => ?_
  all_goals exact quiet_update (fun _ => rfl) (fun _ => rfl) (fun _ => rfl) (fun _ => rfl)

/-- **One call of the provider.**  Whatever the network does, it leaves the books alone,
logs what belongs to a call, makes no more attempts than the policy allows, and ends in a
state of a call: in streaming when it returns. -/
theorem oneRound_spec (tools : List ToolSpec) (budget : Budget) {s : Sys P}
    (underway : Underway s.session.state) :
    wp (oneRound env tools budget)
      (fun _ s' => Called tools (maxAttempts env) s s' ∧ s'.session.state = .streaming)
      (fun _ s' => Called tools (maxAttempts env) s s') s := by
  have framing := Quiet.framing (P := P) (Speaks "backoff")
  have start : Called tools 0 s s :=
    ⟨(Calm.framing _).refl s, steered_of_lawful fun lawful => lawful, underway, Nat.le_refl _⟩
  unfold oneRound
  rw [wp_bind]
  refine wp_mono ((quiet_ensureProvider env).wp s) (fun p s₁ bound => ?_)
    (fun _ _ quiet => (start.quiet quiet).mono (Nat.zero_le _))
  rw [wp_bind]
  refine wp_mono ((quiet_openRequest env p).wp s₁) (fun _ s₂ opened => ?_)
    (fun _ _ quiet => (start.quiet (framing.trans bound quiet)).mono (Nat.zero_le _))
  have ready : Called tools 0 s s₂ := start.quiet (framing.trans bound opened)
  refine wp_retryLoop env
    (I := fun attempt s' => ∃ made, made + 1 = attempt ∧ Called tools made s s') ?_
    ⟨0, rfl, ready⟩ _
  rintro attempt seed s' within ⟨made, rfl, called⟩
  exact wp_mono (tryOnce_spec env budget (made + 1) seed called)
    (fun next _ post =>
      ⟨fun ended => ⟨post.1.mono within, post.2 ended⟩, fun _ => ⟨made + 1, rfl, post.1⟩⟩)
    (fun _ _ post => post.mono within)

end Opencodepp.Agent
