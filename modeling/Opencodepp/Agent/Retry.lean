import Opencodepp.Agent.Frame
import Opencodepp.Agent.Replay
import Opencodepp.Agent.Scripted
import Opencodepp.Library.Program

/-!
# Rounds with retries

A round may try several times.  The outcome of every attempt is computed here from its
script, and from them the reply of the round: all frames that any of its attempts has
delivered go through one adapter into one set of accumulators (`oneRound_outcome`).

The reply is therefore what the last attempt alone would have given exactly when the attempts
before it have left no trace (`retried_reply_iff`).
-/

set_option autoImplicit false

namespace Opencodepp.Agent

open Opencodepp.Core
open Opencodepp.Library
open Opencodepp.Library.Program
open Opencodepp.Msg
open Opencodepp.Provider

variable (env : Env)

/-! ## The outcome of an attempt -/

/-- How sending a number of bytes ends. -/
def sendOutcome : List (Except Failure Nat) → Nat → Except Failure Unit
  | [], remaining => if remaining = 0 then .ok () else .error (.of .eNetTimeout)
  | outcome :: rest, remaining =>
      if remaining = 0 then .ok ()
      else
        match outcome with
        | .error e => .error e
        | .ok sent => if sent = 0 then .error (.of .eNetConnect) else sendOutcome rest (remaining - sent)

/-- How reading the response head ends. -/
def readOutcome : List HeadRead → Except Failure Nat
  | [] => .error (.of .eNetTimeout)
  | .fail failure :: _ => .error failure
  | .eof :: _ => .error (.of .eNetConnect)
  | .more :: rest => readOutcome rest
  | .head code :: _ => .ok code

/-- The frames of a body up to its end, and the end. -/
def bodyOutcome : List BodyStep → Except Failure Unit → List StreamFrame × Except Failure Unit
  | [], bodyEnd => ([], bodyEnd)
  | step :: rest, bodyEnd =>
      match step.after with
      | .error e => (step.frames, .error e)
      | .ok _ => (step.frames ++ (bodyOutcome rest bodyEnd).1, (bodyOutcome rest bodyEnd).2)

/-- How an attempt gets to the body of its response, with a request of so many bytes. -/
def Attempt.reaches (script : Attempt) (size : Nat) : Except Failure Unit :=
  match script.opened, script.connected, sendOutcome script.sends size,
    readOutcome script.reads with
  | .error e, _, _, _ => .error e
  | _, .error e, _, _ => .error e
  | _, _, .error e, _ => .error e
  | _, _, _, .error e => .error e
  | .ok _, .ok _, .ok _, .ok code => (Net.httpStatusError code).check

/-- The frames an attempt delivers, and how it ends. -/
def Attempt.outcome (script : Attempt) (size : Nat) : List StreamFrame × Except Failure Unit :=
  match script.reaches size with
  | .error e => ([], .error e)
  | .ok _ => bodyOutcome script.body script.bodyEnd

/-! ## What an attempt works on -/

/-- What an attempt reads and changes. -/
structure Line where
  stream : Option (Adapter × Accum)
  messages : List Message
  requestId : Bytes
  attempts : Nat

def Sys.line (s : Sys factory) : Line where
  stream := s.session.provider.map fun p => (p, s.acc)
  messages := s.session.messages
  requestId := s.session.requestId
  attempts := s.count.attempts

/-- The line once another attempt is started. -/
def Line.next (line : Line) : Line := { line with attempts := line.attempts + 1 }

/-- The line after more frames. -/
def Line.fed (line : Line) (frames : List StreamFrame) : Line :=
  { line with stream := line.stream.map (replay · frames) }

theorem Line.fed_nil (line : Line) : line.fed [] = line := by
  unfold Line.fed replay
  simp

theorem Line.fed_append (line : Line) (first second : List StreamFrame) :
    line.fed (first ++ second) = (line.fed first).fed second := by
  unfold Line.fed
  simp [replay_append, Function.comp_def]

/-- The host never asks to stop. -/
structure Undisturbed : Prop where
  host : ∀ n, env.world.hostCancels n = false
  sink : ∀ n, env.world.sinkStops n = false

/-- A state from which nothing is cancelled. -/
def Clear (s : Sys factory) : Prop := Undisturbed env ∧ s.cancel = false

/-- The outcome of a part of a round, as far as the line shows it. -/
def Passes {α : Type} (x : Program (Sys factory) Failure α) (s : Sys factory)
    (r : Except Failure α) (line : Line) : Prop :=
  Runs Sys.line (Clear env) cancelledFailure x s r line

section Parts

variable {s : Sys factory}

theorem passes_emit (phase : String) (detail : Bytes) (status : Nat) :
    Passes env (emit env phase detail status) s (.ok ()) s.line := by
  unfold emit
  refine .inl ?_
  split
  · refine ⟨rfl, rfl, fun clear => ⟨clear.1, ?_⟩⟩
    simp [clear.2, clear.1.sink]
  · exact ⟨rfl, rfl, fun clear => clear⟩

theorem passes_pollCancel (site : PollSite) :
    Passes env (pollCancel env site) s (.ok s.cancel) s.line := by
  refine .inl ⟨rfl, rfl, fun clear => ⟨clear.1, ?_⟩⟩
  simp [pollCancel, clear.2, clear.1.host]

theorem passes_checkCancel (site : PollSite) :
    Passes env (checkCancel env site) s (.ok ()) s.line := by
  cases flag : s.cancel with
  | false =>
      have polled := passes_pollCancel env (s := s) site
      rw [flag] at polled
      refine Runs.bind polled fun s' seen => ?_
      rw [← seen]
      exact Runs.pure ()
  | true =>
      refine .inr ⟨?_, fun clear => ?_⟩
      · show (andThen (pollCancel env site) _ s).1 = _
        simp [andThen, pollCancel, flag, stopIf, stop]
      · rw [clear.2] at flag
        cases flag

theorem passes_lift {α : Type} (x : Except Failure α) : Passes env (lift x) s x s.line := by
  cases x with
  | ok a => exact Runs.pure a
  | error e => exact Runs.stop e

theorem passes_record (ev : Ev) : Passes env (record ev) s (.ok ()) s.line :=
  Runs.update fun clear => clear

theorem passes_setState (target : AgentState) : Passes env (setState target) s (.ok ()) s.line :=
  Runs.update fun clear => clear

theorem passes_setLane (lane : AgentLane) : Passes env (setLane lane) s (.ok ()) s.line :=
  Runs.update fun clear => clear

end Parts

/-- Sending ends as its script says. -/
theorem passes_sendAll : ∀ (sends : List (Except Failure Nat)) (remaining : Nat)
    (s : Sys factory),
    Passes env (sendAll env sends remaining) s (sendOutcome sends remaining) s.line := by
  intro sends
  induction sends with
  | nil =>
      intro remaining s
      unfold sendAll sendOutcome
      split
      · exact Runs.pure ()
      · refine Runs.bind (passes_checkCancel env .send) fun s' seen => ?_
        rw [← seen]
        exact Runs.stop _
  | cons outcome rest inductionHypothesis =>
      intro remaining s
      unfold sendAll sendOutcome
      split
      · exact Runs.pure ()
      · refine Runs.bind (passes_checkCancel env .send) fun s₁ seen => ?_
        rw [← seen]
        cases outcome with
        | error e => exact Runs.bind_error (passes_lift env (.error e))
        | ok sent =>
            refine Runs.bind (passes_lift env (.ok sent)) fun s₂ seen' => ?_
            rw [← seen']
            by_cases none_ : sent = 0
            · simp only [none_, stopIf, decide_true, if_true]
              exact Runs.bind_error (Runs.stop _)
            · simp only [none_, stopIf, decide_false, if_false, Bool.false_eq_true]
              refine Runs.bind (Runs.pure ()) fun s₃ seen₃ => ?_
              rw [← seen₃]
              exact inductionHypothesis (remaining - sent) s₃

/-- Reading the head ends as its script says. -/
theorem passes_readHead : ∀ (reads : List HeadRead) (s : Sys factory),
    Passes env (readHead env reads) s (readOutcome reads) s.line := by
  intro reads
  induction reads with
  | nil =>
      intro s
      refine Runs.bind (passes_checkCancel env .read) fun s' seen => ?_
      rw [← seen]
      exact Runs.stop _
  | cons read rest inductionHypothesis =>
      intro s
      cases read with
      | fail failure =>
          refine Runs.bind (passes_checkCancel env .read) fun s' seen => ?_
          rw [← seen]
          exact Runs.stop _
      | eof =>
          refine Runs.bind (passes_checkCancel env .read) fun s' seen => ?_
          rw [← seen]
          exact Runs.stop _
      | more =>
          refine Runs.bind (passes_checkCancel env .read) fun s' seen => ?_
          rw [← seen]
          exact inductionHypothesis s'
      | head code =>
          refine Runs.bind (passes_checkCancel env .read) fun s' seen => ?_
          rw [← seen]
          exact Runs.pure code

/-! ## The body of a response -/

/-- The line and the latest parse error, which the body of a response also reads. -/
def Sys.body (s : Sys factory) : Line × ErrorCode := (s.line, s.parseErr)

/-- The outcome of a part of a body. -/
def Streams {α : Type} (x : Program (Sys factory) Failure α) (s : Sys factory)
    (r : Except Failure α) (frames : List StreamFrame) : Prop :=
  Runs Sys.body (Clear env) cancelledFailure x s r (s.line.fed frames, .success)

/-- A frame changes the stream, and no adapter reports an error for it. -/
theorem deliverFrame_body (frame : StreamFrame) {s : Sys factory} (fine : s.parseErr = .success) :
    ((deliverFrame frame : Program (Sys factory) Failure Unit) s).2.body =
      (s.line.fed [frame], .success) := by
  have clean : s.parseErr.ok = true := by rw [fine]; rfl
  cases bound : s.session.provider with
  | none =>
      have same : ((deliverFrame frame : Program (Sys factory) Failure Unit) s).2 = s := by
        simp only [deliverFrame, Program.update, bound]
      rw [same]
      refine Prod.ext ?_ fine
      simp only [Sys.body, Sys.line, Line.fed, bound]
      rfl
  | some p =>
      have moved : ((deliverFrame frame : Program (Sys factory) Failure Unit) s).2 =
          { s with
            session.provider := some (p.parseFrame frame).2.1
            parseErr := (p.parseFrame frame).1
            acc := (p.parseFrame frame).2.2.foldl Accum.sink s.acc } := by
        simp only [deliverFrame, Program.update, bound, clean, if_true]
        rfl
      have parses : (p.parseFrame frame).1 = .success := by cases p <;> rfl
      rw [moved]
      refine Prod.ext ?_ parses
      simp only [Sys.body, Sys.line, Line.fed, bound]
      rfl

theorem streams_deliverFrame (frame : StreamFrame) {s : Sys factory}
    (fine : s.parseErr = .success) : Streams env (deliverFrame frame) s (.ok ()) [frame] := by
  refine .inl ⟨rfl, deliverFrame_body frame fine, fun clear => ?_⟩
  unfold deliverFrame Program.update
  dsimp only
  split
  · exact clear
  · split
    · exact clear
    · exact clear

/-- All frames of a chunk are delivered. -/
theorem streams_forEach : ∀ (frames : List StreamFrame) {s : Sys factory},
    s.parseErr = .success →
      Streams env (.forEach deliverFrame frames) s (.ok ()) frames := by
  intro frames
  induction frames with
  | nil =>
      intro s fine
      have done : Streams env (pure ()) s (.ok ()) [] := by
        refine .inl ⟨rfl, ?_, fun clear => clear⟩
        rw [Line.fed_nil]
        exact Prod.ext rfl fine
      exact done
  | cons frame rest inductionHypothesis =>
      intro s fine
      refine Runs.bind (streams_deliverFrame env frame fine) fun s' seen => ?_
      have fine' : s'.parseErr = .success := congrArg Prod.snd seen
      have line' : s'.line = s.line.fed [frame] := congrArg Prod.fst seen
      have rest' := inductionHypothesis fine'
      unfold Streams at rest'
      rw [line', ← Line.fed_append] at rest'
      exact rest'

/-- A step that leaves the line alone, within a body. -/
theorem Passes.in_body {α : Type} {x : Program (Sys factory) Failure α} {s : Sys factory}
    {r : Except Failure α} (passes : Passes env x s r s.line)
    (kept : (x s).2.parseErr = s.parseErr) :
    Runs Sys.body (Clear env) cancelledFailure x s r s.body := by
  rcases passes with ⟨result, seen, safe⟩ | quits
  · exact .inl ⟨result, Prod.ext seen kept, safe⟩
  · exact .inr quits

theorem parseErr_checkCancel (site : PollSite) (s : Sys factory) :
    ((checkCancel env site : Program (Sys factory) Failure Unit) s).2.parseErr = s.parseErr := by
  show (andThen (pollCancel env site) _ s).2.parseErr = s.parseErr
  cases flag : s.cancel with
  | false =>
      simp only [andThen, pollCancel, flag]
      rfl
  | true => simp [andThen, pollCancel, flag, stopIf, stop]

theorem parseErr_emit (phase : String) (detail : Bytes) (status : Nat) (s : Sys factory) :
    ((emit env phase detail status : Program (Sys factory) Failure Unit) s).2.parseErr =
      s.parseErr := by
  unfold emit
  split <;> rfl

/-- Feeding the body ends as its script says. -/
theorem streams_drainBody : ∀ (steps : List BodyStep) (bodyEnd : Except Failure Unit)
    {s : Sys factory}, s.parseErr = .success →
      Streams env (drainBody env steps bodyEnd) s (bodyOutcome steps bodyEnd).2
        (bodyOutcome steps bodyEnd).1 := by
  intro steps
  induction steps with
  | nil =>
      intro bodyEnd s fine
      have ended : Runs Sys.body (Clear env) cancelledFailure (lift bodyEnd) s bodyEnd s.body :=
        (passes_lift env bodyEnd).in_body env (by cases bodyEnd <;> rfl)
      have view : s.body = (s.line.fed [], .success) := by
        rw [Line.fed_nil]
        exact Prod.ext rfl fine
      rw [view] at ended
      exact ended
  | cons step rest inductionHypothesis =>
      intro bodyEnd s fine
      unfold drainBody
      refine Runs.bind ((passes_checkCancel env .feed).in_body env
        (parseErr_checkCancel env .feed s)) fun s₁ seen₁ => ?_
      have fine₁ : s₁.parseErr = .success := (congrArg Prod.snd seen₁).trans fine
      have line₁ : s₁.line = s.line := congrArg Prod.fst seen₁
      refine Runs.bind (streams_forEach env step.frames fine₁) fun s₂ seen₂ => ?_
      have fine₂ : s₂.parseErr = .success := congrArg Prod.snd seen₂
      have line₂ : s₂.line = s.line.fed step.frames := line₁ ▸ congrArg Prod.fst seen₂
      have view₂ : s₂.body = (s.line.fed step.frames, .success) := Prod.ext line₂ fine₂
      unfold bodyOutcome
      cases after : step.after with
      | error e =>
          have failed : Runs Sys.body (Clear env) cancelledFailure
              (lift (.error e : Except Failure Unit)) s₂ (.error e) s₂.body := Runs.stop e
          rw [view₂] at failed
          exact Runs.bind_error failed
      | ok _ =>
          have went : Runs Sys.body (Clear env) cancelledFailure
              (lift (.ok () : Except Failure Unit)) s₂ (.ok ()) s₂.body := Runs.pure ()
          refine Runs.bind went fun s₃ seen₃ => ?_
          have fine₃ : s₃.parseErr = .success := (congrArg Prod.snd seen₃).trans fine₂
          have line₃ : s₃.line = s.line.fed step.frames := (congrArg Prod.fst seen₃).trans line₂
          have tail := inductionHypothesis bodyEnd fine₃
          unfold Streams at tail
          rw [line₃, ← Line.fed_append] at tail
          exact tail

/-- The stream of an open response ends as its script says. -/
theorem passes_streamBody (script : Attempt) (s : Sys factory) :
    Passes env (streamBody env script) s (bodyOutcome script.body script.bodyEnd).2
      (s.line.fed (bodyOutcome script.body script.bodyEnd).1) := by
  have whole : Streams env (streamBody env script) s (bodyOutcome script.body script.bodyEnd).2
      (bodyOutcome script.body script.bodyEnd).1 := by
    unfold streamBody
    have opens : Runs Sys.body (Clear env) cancelledFailure
        (.update fun s : Sys factory => { s with parseErr := .success }) s (.ok ())
        (s.line, .success) :=
      Runs.update fun clear => clear
    refine Runs.bind opens fun s₁ seen₁ => ?_
    have fine₁ : s₁.parseErr = .success := congrArg Prod.snd seen₁
    have line₁ : s₁.line = s.line := congrArg Prod.fst seen₁
    have drained := streams_drainBody env script.body script.bodyEnd fine₁
    unfold Streams at drained
    rw [line₁] at drained
    refine Runs.attempt_bind drained (fun s₂ seen₂ => ?_) (fun s₂ => ?_)
    · have fine₂ : s₂.parseErr = .success := congrArg Prod.snd seen₂
      have reports (detail : Bytes) (status : Nat) := (passes_emit env (s := s₂) "stream" detail
        status).in_body env (parseErr_emit env "stream" detail status s₂)
      cases ended : (bodyOutcome script.body script.bodyEnd).2 with
      | error e =>
          refine Runs.bind (reports _ _) fun s₃ seen₃ => ?_
          rw [← seen₂, ← seen₃]
          exact Runs.stop e
      | ok _ =>
          refine Runs.gets_bind ?_
          rw [fine₂, ← seen₂]
          exact reports _ _
    · refine Runs.quits (w := s₂.line) (Runs.bind (passes_emit env "stream" _ _) fun s₃ seen => ?_)
      rw [← seen]
      exact Runs.stop cancelledFailure
  exact whole.seen_through Prod.fst

/-! ## A whole attempt -/

/-- The request a round puts on the wire. -/
def wireFor (p : Adapter) (msgs : List Message) (tools : List ToolSpec) (budget : Budget)
    (requestId : Bytes) : Except Failure Bytes :=
  match p.buildRequest msgs tools env.session.model budget, splitUrl env.session.model.baseUrl with
  | .error e, _ => .error e
  | _, .error e => .error e
  | .ok req, .ok url =>
      if url.scheme ≠ str "http" then .error (.of .eNotImpl) else wireRequest url req requestId

theorem wireFor_ok {p : Adapter} {msgs : List Message} {tools : List ToolSpec} {budget : Budget}
    {requestId wire : Bytes} (request : wireFor env p msgs tools budget requestId = .ok wire) :
    ∃ req url, p.buildRequest msgs tools env.session.model budget = .ok req ∧
      splitUrl env.session.model.baseUrl = .ok url ∧ url.scheme = str "http" ∧
      wireRequest url req requestId = .ok wire := by
  unfold wireFor at request
  split at request
  · cases request
  · cases request
  · next req url built split_ =>
      split at request
      · cases request
      · next http =>
          exact ⟨req, url, built, split_, by simpa using http, request⟩

/-- Up to the head of the response. -/
theorem passes_sendRequest (script : Attempt) {url : UrlParts} {req : RequestBytes} {wire : Bytes}
    {s : Sys factory} (request : wireRequest url req s.line.requestId = .ok wire) :
    Passes env (sendRequest env script url req) s
      (match script.opened, script.connected, sendOutcome script.sends wire.length with
        | .error e, _, _ => .error e
        | _, .error e, _ => .error e
        | _, _, .error e => .error e
        | .ok _, .ok _, .ok _ => readOutcome script.reads) s.line := by
  unfold sendRequest
  refine Runs.bind (passes_emit env "connect" _ _) fun s₁ seen₁ => ?_
  rw [← seen₁] at request ⊢
  have connects : Passes env (connect env script) s₁
      (match script.opened, script.connected with
        | .error e, _ => .error e
        | _, .error e => .error e
        | .ok _, .ok _ => .ok ()) s₁.line := by
    unfold connect
    cases script.opened with
    | error e => exact Runs.bind_error (passes_lift env (.error e))
    | ok _ =>
        refine Runs.bind (passes_lift env (.ok ())) fun s₂ seen₂ => ?_
        rw [← seen₂]
        cases script.connected with
        | ok _ => exact Runs.pure ()
        | error e =>
            refine Runs.bind (passes_emit env "connect" _ _) fun s₃ seen₃ => ?_
            rw [← seen₃]
            exact Runs.stop e
  cases opened : script.opened with
  | error e =>
      rw [opened] at connects
      exact Runs.bind_error connects
  | ok _ =>
      cases connected : script.connected with
      | error e =>
          rw [opened, connected] at connects
          exact Runs.bind_error connects
      | ok _ =>
          rw [opened, connected] at connects
          refine Runs.bind connects fun s₂ seen₂ => ?_
          refine Runs.gets_bind ?_
          rw [← seen₂] at request ⊢
          have same : wireRequest url req s₂.session.requestId = .ok wire := request
          rw [same]
          refine Runs.bind (passes_lift env (.ok wire)) fun s₃ seen₃ => ?_
          rw [← seen₃]
          have sent := passes_sendAll env script.sends wire.length s₃
          cases sending : sendOutcome script.sends wire.length with
          | error e =>
              rw [sending] at sent
              exact Runs.bind_error sent
          | ok _ =>
              rw [sending] at sent
              refine Runs.bind sent fun s₄ seen₄ => ?_
              rw [← seen₄]
              exact passes_readHead env script.reads s₄

/-- The network part of an attempt. -/
theorem passes_exchange (script : Attempt) {url : UrlParts} {req : RequestBytes} {wire : Bytes}
    {s : Sys factory} (request : wireRequest url req s.line.requestId = .ok wire) :
    Passes env (exchange env script url req) s (script.outcome wire.length).2
      (s.line.fed (script.outcome wire.length).1) := by
  unfold exchange
  refine Runs.bind (passes_setState env .connecting) fun s₁ seen₁ => ?_
  rw [← seen₁] at request ⊢
  have heads := passes_sendRequest env script request
  have unreached {e : Failure} (failed : script.reaches wire.length = .error e)
      (sends : Passes env (sendRequest env script url req) s₁ (.error e) s₁.line) :
      Passes env (sendRequest env script url req >>= receive env script) s₁
        (script.outcome wire.length).2 (s₁.line.fed (script.outcome wire.length).1) := by
    unfold Attempt.outcome
    rw [failed, Line.fed_nil]
    exact Runs.bind_error sends
  cases opened : script.opened with
  | error e =>
      rw [opened] at heads
      exact unreached (by simp only [Attempt.reaches, opened]) heads
  | ok _ =>
  cases connected : script.connected with
  | error e =>
      rw [opened, connected] at heads
      exact unreached (by simp only [Attempt.reaches, opened, connected]) heads
  | ok _ =>
  cases sent : sendOutcome script.sends wire.length with
  | error e =>
      rw [opened, connected, sent] at heads
      exact unreached (by simp only [Attempt.reaches, opened, connected, sent]) heads
  | ok _ =>
  cases read : readOutcome script.reads with
  | error e =>
      rw [opened, connected, sent, read] at heads
      exact unreached (by simp only [Attempt.reaches, opened, connected, sent, read]) heads
  | ok code =>
      rw [opened, connected, sent, read] at heads
      have reaches : script.reaches wire.length = (Net.httpStatusError code).check := by
        simp only [Attempt.reaches, opened, connected, sent, read]
      refine Runs.bind heads fun s₂ seen₂ => ?_
      rw [← seen₂]
      unfold receive Attempt.outcome
      rw [reaches]
      cases (Net.httpStatusError code).check with
      | error e =>
          rw [Line.fed_nil]
          refine Runs.bind (passes_emit env "stream" _ _) fun s₃ seen₃ => ?_
          rw [← seen₃]
          exact Runs.stop e
      | ok _ =>
          refine Runs.bind (passes_setState env .streaming) fun s₃ seen₃ => ?_
          rw [← seen₃]
          refine Runs.bind (passes_emit env "stream" _ _) fun s₄ seen₄ => ?_
          rw [← seen₄]
          exact passes_streamBody env script s₄

theorem provider_of_stream {s : Sys factory} {state : Adapter × Accum}
    (stream : s.line.stream = some state) :
    s.session.provider = some state.1 ∧ s.acc = state.2 := by
  obtain ⟨p, bound, same⟩ := Option.map_eq_some_iff.mp stream
  cases same
  exact ⟨bound, rfl⟩

/-- **An attempt ends as its script says**, and delivers the frames of its script. -/
theorem passes_streamCall (tools : List ToolSpec) (budget : Budget) {s : Sys factory}
    {state : Adapter × Accum} {wire : Bytes} (hasLoop : env.opts.hasLoop = true)
    (stream : s.line.stream = some state)
    (request : wireFor env state.1 s.line.messages tools budget s.line.requestId = .ok wire) :
    Passes env (streamCall env s.line.messages tools budget) s
      ((env.world.attempts s.line.attempts).outcome wire.length).2
      (s.line.next.fed ((env.world.attempts s.line.attempts).outcome wire.length).1) := by
  obtain ⟨req, url, built, split_, http, sent⟩ := wireFor_ok env request
  unfold streamCall
  have counted : Passes env (nextAttempt env) s (.ok (env.world.attempts s.line.attempts))
      s.line.next :=
    .inl ⟨rfl, rfl, fun clear => clear⟩
  refine Runs.bind counted fun s₁ seen₁ => ?_
  rw [hasLoop]
  refine Runs.bind (Runs.pure ()) fun s₂ seen₂ => ?_
  refine Runs.bind (passes_checkCancel env .call) fun s₃ seen₃ => ?_
  have view₃ : s₃.line = s.line.next := seen₃.trans (seen₂.trans seen₁)
  have bound : s₃.session.provider = some state.1 :=
    (provider_of_stream ((congrArg Line.stream view₃).trans stream)).1
  refine Runs.gets_bind ?_
  rw [bound]
  refine Runs.bind (passes_record env _) fun s₄ seen₄ => ?_
  have builds : factory.buildRequest state.1 s.line.messages tools env.session.model budget =
      .ok req := built
  rw [builds]
  refine Runs.bind (passes_lift env (.ok req)) fun s₅ seen₅ => ?_
  rw [split_]
  refine Runs.bind (passes_lift env (.ok url)) fun s₆ seen₆ => ?_
  rw [http]
  refine Runs.bind (Runs.pure ()) fun s₇ seen₇ => ?_
  have view₇ : s₇.line = s.line.next :=
    seen₇.trans (seen₆.trans (seen₅.trans (seen₄.trans view₃)))
  rw [← view₇]
  refine passes_exchange env _ ?_
  rw [view₇]
  exact sent

/-! ## Several attempts -/

theorem passes_sleepSlices : ∀ (slices : Nat) (s : Sys factory),
    Passes env (sleepSlices env slices) s (.ok ()) s.line := by
  intro slices
  induction slices with
  | zero =>
      intro s
      exact Runs.pure ()
  | succ slices inductionHypothesis =>
      intro s
      refine Runs.bind (passes_pollCancel env .backoff) fun s' seen => ?_
      rw [← seen]
      cases s.cancel with
      | true => exact Runs.pure ()
      | false => exact inductionHypothesis s'

theorem passes_backoff (decision : Net.RetryDecision) (e : Failure) (s : Sys factory) :
    Passes env (backoff env decision e) s (.ok ()) s.line := by
  unfold backoff
  refine Runs.bind (passes_setLane env .backoff) fun s₁ seen₁ => ?_
  rw [← seen₁]
  refine Runs.bind (passes_emit env "backoff" _ _) fun s₂ seen₂ => ?_
  rw [← seen₂]
  refine Runs.bind (passes_sleepSlices env _ s₂) fun s₃ seen₃ => ?_
  rw [← seen₃]
  exact passes_setLane env .none

/-- A failure the policy retries, with attempts left. -/
structure Retries (attempt : Nat) (e : Failure) : Prop where
  retryable : Net.retryable e.ec = true
  left : attempt < env.opts.retry.maxRetries.toNat

theorem Retries.not_cancelled {attempt : Nat} {e : Failure} (retries : Retries env attempt e) :
    e.ec.code ≠ .eCancelled := by
  intro cancelled
  have retryable := retries.retryable
  simp [Net.retryable, cancelled, retryClass] at retryable

/-- The next attempt after a failure that is retried. -/
theorem passes_judge_retry {attempt : Nat} {seed : UInt32} {e : Failure} {s : Sys factory}
    (retries : Retries env attempt e) (fine : s.acc.providerErr.ok = true) :
    Passes env (judgeAttempt env attempt seed (.error e)) s
      (.ok (some (Net.decideRetry env.opts.retry seed e.ec attempt).2)) s.line := by
  have other : decide (e.ec.code = .eCancelled) = false := by simp [retries.not_cancelled]
  have checked : s.acc.providerErr.check = .ok () := by simp [ErrorCode.check, fine]
  have decided : (Net.decideRetry env.opts.retry seed e.ec attempt).1.retry = true :=
    (Net.decideRetry_retry_iff _ _ _ _).mpr ⟨e.failed, retries.retryable, retries.left⟩
  unfold judgeAttempt
  refine Runs.gets_bind ?_
  dsimp only
  rw [other, checked, decided]
  refine Runs.bind (Runs.pure ()) fun s₁ seen₁ => ?_
  refine Runs.bind (passes_lift env (.ok ())) fun s₂ seen₂ => ?_
  refine Runs.bind (Runs.pure ()) fun s₃ seen₃ => ?_
  refine Runs.bind (passes_backoff env _ e s₃) fun s₄ seen₄ => ?_
  rw [← seen₁, ← seen₂, ← seen₃, ← seen₄]
  exact Runs.pure _

/-- The end of a round after an attempt that succeeds. -/
theorem passes_judge_success {attempt : Nat} {seed : UInt32} (s : Sys factory) :
    Passes env (judgeAttempt env attempt seed (.ok ())) s
      (s.acc.providerErr.check.map fun _ => none) s.line := by
  unfold judgeAttempt
  refine Runs.gets_bind ?_
  dsimp only
  cases s.acc.providerErr.check with
  | error e => exact Runs.bind_error (passes_lift env (.error e))
  | ok _ =>
      refine Runs.bind (passes_lift env (.ok ())) fun s₁ seen₁ => ?_
      rw [← seen₁]
      exact Runs.pure none

/-- One pass of the retry loop. -/
theorem passes_tryOnce (tools : List ToolSpec) (budget : Budget) {attempt : Nat} {seed : UInt32}
    {s : Sys factory} {state : Adapter × Accum} {wire : Bytes}
    {r : Except Failure (Option UInt32)} (hasLoop : env.opts.hasLoop = true)
    (stream : s.line.stream = some state)
    (request : wireFor env state.1 s.line.messages tools budget s.line.requestId = .ok wire)
    (judged : ∀ s', s'.line = s.line.next.fed
        ((env.world.attempts s.line.attempts).outcome wire.length).1 →
      Passes env (judgeAttempt env attempt seed
        ((env.world.attempts s.line.attempts).outcome wire.length).2) s' r s'.line) :
    Passes env (tryOnce env tools budget attempt seed) s r
      (s.line.next.fed ((env.world.attempts s.line.attempts).outcome wire.length).1) := by
  unfold tryOnce
  refine Runs.bind (passes_checkCancel env .attempt) fun s₁ seen₁ => ?_
  refine Runs.gets_bind (Runs.gets_bind (Runs.gets_bind ?_))
  refine Runs.bind (passes_record env _) fun s₂ seen₂ => ?_
  have view₂ : s₂.line = s.line := seen₂.trans seen₁
  have messages : s₁.session.messages = s₂.line.messages := congrArg Line.messages seen₂.symm
  rw [messages]
  rw [← view₂] at stream request judged ⊢
  refine Runs.attempt_bind (passes_streamCall env tools budget hasLoop stream request)
    (fun s₃ seen₃ => ?_) (fun s₃ => rfl)
  rw [← seen₃]
  exact judged s₃ seen₃

/-- The scripts are those of the coming attempts. -/
def Plays (start : Nat) (scripts : List Attempt) : Prop :=
  ∀ i script, scripts[i]? = some script → env.world.attempts (start + i) = script

theorem Plays.tail {start : Nat} {script : Attempt} {rest : List Attempt}
    (plays : Plays env start (script :: rest)) :
    env.world.attempts start = script ∧ Plays env (start + 1) rest := by
  refine ⟨plays 0 script rfl, fun i later found => ?_⟩
  have shifted := plays (i + 1) later (by simpa using found)
  rw [← shifted]
  congr 1
  omega

/-- The frames that attempts deliver. -/
def framesOf (size : Nat) (scripts : List Attempt) : List StreamFrame :=
  scripts.flatMap fun script => (script.outcome size).1

/-- An attempt that fails, and is retried. -/
def Fails (size : Nat) (script : Attempt) : Prop :=
  ∃ e, (script.outcome size).2 = .error e ∧ Net.retryable e.ec = true

/-- The line after attempts. -/
def Line.tried (line : Line) (size : Nat) (scripts : List Attempt) : Line :=
  scripts.foldl (fun line script => line.next.fed (script.outcome size).1) line

theorem Line.stream_next_fed {line : Line} {state : Adapter × Accum}
    (stream : line.stream = some state) (frames : List StreamFrame) :
    (line.next.fed frames).stream = some (replay state frames) := by
  show line.stream.map (replay · frames) = _
  rw [stream]
  rfl

theorem Line.stream_tried (size : Nat) (scripts : List Attempt) : ∀ {line : Line}
    {state : Adapter × Accum}, line.stream = some state →
      (line.tried size scripts).stream = some (replay state (framesOf size scripts)) := by
  induction scripts with
  | nil =>
      intro line state stream
      exact stream
  | cons script rest inductionHypothesis =>
      intro line state stream
      have later := inductionHypothesis (line.stream_next_fed stream (script.outcome size).1)
      rw [← replay_append] at later
      exact later

/-- Requests do not look at the stream. -/
theorem wireFor_congr {p q : Adapter} (same : p.resetStream = q.resetStream) :
    wireFor env p = wireFor env q := by
  funext msgs tools budget requestId
  unfold wireFor
  rw [buildRequest_congr same]

/-- **The retry loop plays its scripts.**  The failures are retried one after the other, and
the last attempt decides; the frames of all of them have gone the same way. -/
theorem passes_retryLoop (tools : List ToolSpec) (budget : Budget) {wire : Bytes} {last : Attempt}
    (hasLoop : env.opts.hasLoop = true) (succeeds : (last.outcome wire.length).2 = .ok ()) :
    ∀ (aborted : List Attempt) (left attempt : Nat) (seed : UInt32) {s : Sys factory}
      {state : Adapter × Accum}, s.line.stream = some state →
      wireFor env state.1 s.line.messages tools budget s.line.requestId = .ok wire →
      Plays env s.line.attempts (aborted ++ [last]) → aborted.length < left →
      (∀ i < aborted.length, attempt + i < env.opts.retry.maxRetries.toNat) →
      (∀ script ∈ aborted, Fails wire.length script) →
      (replay state (framesOf wire.length aborted)).2.providerErr.ok = true →
      Passes env (retryLoop env tools budget left attempt seed) s
        (replay state (framesOf wire.length (aborted ++ [last]))).2.providerErr.check
        (s.line.tried wire.length (aborted ++ [last])) := by
  intro aborted
  induction aborted with
  | nil =>
      intro left attempt seed s state stream request plays few _ _ _
      obtain ⟨left, rfl⟩ : ∃ n, left = n + 1 := ⟨left - 1, by omega⟩
      have script : env.world.attempts s.line.attempts = last := (Plays.tail env plays).1
      have judged : ∀ s', s'.line = s.line.next.fed
          ((env.world.attempts s.line.attempts).outcome wire.length).1 →
          Passes env (judgeAttempt env attempt seed
            ((env.world.attempts s.line.attempts).outcome wire.length).2) s'
            ((replay state (last.outcome wire.length).1).2.providerErr.check.map fun _ => none)
            s'.line := by
        intro s' seen
        rw [script] at seen ⊢
        have fed := s.line.stream_next_fed stream (last.outcome wire.length).1
        rw [← seen] at fed
        rw [succeeds, ← (provider_of_stream fed).2]
        exact passes_judge_success env s'
      have tried := passes_tryOnce env tools budget hasLoop stream request judged
      rw [script] at tried
      have frames : framesOf wire.length ([] ++ [last]) = (last.outcome wire.length).1 :=
        List.append_nil _
      rw [frames]
      unfold retryLoop
      cases checked : (replay state (last.outcome wire.length).1).2.providerErr.check with
      | error e =>
          rw [checked] at tried
          exact Runs.bind_error tried
      | ok _ =>
          rw [checked] at tried
          refine Runs.bind tried fun s' seen => ?_
          have view : s'.line = s.line.tried wire.length ([] ++ [last]) := seen
          rw [← view]
          exact Runs.pure ()
  | cons script rest inductionHypothesis =>
      intro left attempt seed s state stream request plays few budgeted failing fine
      obtain ⟨left, rfl⟩ : ∃ n, left = n + 1 := ⟨left - 1, by omega⟩
      obtain ⟨first, later⟩ := Plays.tail env plays
      obtain ⟨e, ended, retryable⟩ := failing script (List.mem_cons_self ..)
      have retries : Retries env attempt e := ⟨retryable, budgeted 0 (Nat.succ_pos _)⟩
      have fed := s.line.stream_next_fed stream (script.outcome wire.length).1
      -- An error that a provider reports in an aborted stream would still stand at the end.
      have parts : replay state (framesOf wire.length (script :: rest)) =
          replay (replay state (script.outcome wire.length).1) (framesOf wire.length rest) :=
        replay_append _ _ _
      rw [parts] at fine
      have fine' : (replay state (script.outcome wire.length).1).2.providerErr.ok = true :=
        providerErr_replay _ _ fine ▸ fine
      have judged : ∀ s', s'.line = s.line.next.fed
          ((env.world.attempts s.line.attempts).outcome wire.length).1 →
          Passes env (judgeAttempt env attempt seed
            ((env.world.attempts s.line.attempts).outcome wire.length).2) s'
            (.ok (some (Net.decideRetry env.opts.retry seed e.ec attempt).2)) s'.line := by
        intro s' seen
        rw [first] at seen ⊢
        rw [← seen] at fed
        rw [ended]
        exact passes_judge_retry env retries ((provider_of_stream fed).2 ▸ fine')
      have tried := passes_tryOnce env tools budget hasLoop stream request judged
      rw [first] at tried
      unfold retryLoop
      refine Runs.bind tried fun s' seen => ?_
      rw [← seen] at fed
      have config : (replay state (script.outcome wire.length).1).1.resetStream =
          state.1.resetStream := resetStream_replay _ _
      have request' : wireFor env (replay state (script.outcome wire.length).1).1
          s'.line.messages tools budget s'.line.requestId = .ok wire := by
        rw [wireFor_congr env config, seen]
        exact request
      have later' : Plays env s'.line.attempts (rest ++ [last]) := by
        rw [seen]
        exact later
      have whole := inductionHypothesis left (attempt + 1)
        (Net.decideRetry env.opts.retry seed e.ec attempt).2 fed request' later'
        (Nat.lt_of_succ_lt_succ few)
        (fun i inside => by
          have room := budgeted (i + 1) (Nat.succ_lt_succ inside)
          omega)
        (fun other member => failing other (List.mem_cons_of_mem _ member)) fine
      rw [seen, ← replay_append] at whole
      exact whole

/-! ## A whole round -/

/-- The provider a round talks to: the one of the session, or a new one. -/
def boundProvider (s : Sys factory) : Except Failure Adapter :=
  match s.session.provider with
  | some p => .ok p
  | none =>
      if env.session.providerId = [] then .error (.of .eInvalidCfg)
      else
        makeProvider ⟨env.session.providerId, env.session.apiKey, env.session.model.baseUrl, [],
          env.session.model.defaultMaxTokens⟩

/-- The system once a request is open. -/
def Sys.requesting (s : Sys factory) (p : Adapter) : Sys factory :=
  { s with
    session.provider := some p.resetStream
    session.requestId := env.session.id ++ str "-req" ++ decimal (s.session.reqSeq + 1)
    session.reqSeq := s.session.reqSeq + 1
    acc := .blank }

theorem Sys.stream_requesting (s : Sys factory) (p : Adapter) :
    (s.requesting env p).line.stream = some (clean p) := rfl

/-- The provider is found, and kept in the session. -/
theorem ensureProvider_eq {s : Sys factory} {p : Adapter} (bound : boundProvider env s = .ok p) :
    ensureProvider env s = (.ok p, { s with session.provider := some p }) := by
  unfold boundProvider at bound
  unfold ensureProvider
  rw [Runs.andThen_gets]
  cases held : s.session.provider with
  | some q =>
      rw [held] at bound
      cases bound
      show ((.ok p, s) : Except Failure Adapter × Sys factory) = _
      rw [← held]
      rfl
  | none =>
      rw [held] at bound
      dsimp only at bound ⊢
      split at bound
      · cases bound
      · next named =>
          have made : factory.make ⟨env.session.providerId, env.session.apiKey,
              env.session.model.baseUrl, [], env.session.model.defaultMaxTokens⟩ = .ok p := bound
          rw [if_neg named, made]
          rfl

/-- A round is its retry loop on an open request. -/
theorem oneRound_eq (tools : List ToolSpec) (budget : Budget) {s : Sys factory} {p : Adapter}
    (bound : boundProvider env s = .ok p) :
    oneRound env tools budget s =
      retryLoop env tools budget (maxAttempts env) 1 (Net.setSeed (fnv1a32 env.session.id))
        (s.requesting env p) := by
  unfold oneRound
  rw [Runs.andThen_ok (ensureProvider_eq env bound)]
  rfl

/-- A round that can reach its provider: nothing is cancelled, there is a provider, and its
request can be written. -/
structure Ready (s : Sys factory) (tools : List ToolSpec) (budget : Budget) (p : Adapter)
    (wire : Bytes) : Prop where
  free : s.cancel = false
  hasLoop : env.opts.hasLoop = true
  bound : boundProvider env s = .ok p
  request : wireFor env p s.session.messages tools budget
    (s.requesting env p).session.requestId = .ok wire

/-- Attempts that a round gives up one after the other: each of them ends with an error that
is retried. -/
structure Aborted (p : Adapter) (wire : Bytes) (scripts : List Attempt) : Prop where
  few : scripts.length < maxAttempts env
  failing : ∀ script ∈ scripts, Fails wire.length script
  quiet : (replay (clean p) (framesOf wire.length scripts)).2.providerErr.ok = true

section Round

variable {env} {s : Sys factory} {tools : List ToolSpec} {budget : Budget} {p : Adapter}
  {wire : Bytes} {aborted : List Attempt} {last : Attempt}

/-- **The outcome of a round**: the frames of all its attempts, taken as one stream. -/
theorem oneRound_outcome (ready : Ready env s tools budget p wire)
    (behind : Aborted env p wire aborted)
    (plays : Plays env s.count.attempts (aborted ++ [last]))
    (succeeds : (last.outcome wire.length).2 = .ok ()) :
    Passes env (oneRound env tools budget) s
      (replay (clean p) (framesOf wire.length (aborted ++ [last]))).2.providerErr.check
      ((s.requesting env p).line.tried wire.length (aborted ++ [last])) := by
  have reset : (clean p).1.resetStream = p.resetStream := by cases p <;> rfl
  have request : wireFor env (clean p).1 (s.requesting env p).line.messages tools budget
      (s.requesting env p).line.requestId = .ok wire := by
    rw [wireFor_congr env reset]
    exact ready.request
  have budgeted : ∀ i < aborted.length, 1 + i < env.opts.retry.maxRetries.toNat := by
    intro i inside
    have few := behind.few
    unfold maxAttempts at few
    omega
  have looped := passes_retryLoop env tools budget ready.hasLoop succeeds aborted
    (maxAttempts env) 1 (Net.setSeed (fnv1a32 env.session.id)) (s.stream_requesting env p) request
    plays behind.few budgeted behind.failing behind.quiet
  unfold Passes Runs at looped ⊢
  rw [oneRound_eq env tools budget ready.bound]
  exact looped

/-- The reply of a round that returns. -/
theorem acc_of_returns (ready : Ready env s tools budget p wire)
    (behind : Aborted env p wire aborted)
    (plays : Plays env s.count.attempts (aborted ++ [last]))
    (succeeds : (last.outcome wire.length).2 = .ok ())
    (returns : (oneRound env tools budget s).1 = .ok ()) :
    (oneRound env tools budget s).2.acc =
      (replay (clean p) (framesOf wire.length (aborted ++ [last]))).2 := by
  have seen := ((oneRound_outcome ready behind plays succeeds).result_of_returns returns).2
  have stream := Line.stream_tried wire.length (aborted ++ [last]) (s.stream_requesting env p)
  rw [← seen] at stream
  exact (provider_of_stream stream).2

/-- A round that nothing disturbs returns, unless the provider has reported an error. -/
theorem returns_of_undisturbed (undisturbed : Undisturbed env)
    (ready : Ready env s tools budget p wire) (behind : Aborted env p wire aborted)
    (plays : Plays env s.count.attempts (aborted ++ [last]))
    (succeeds : (last.outcome wire.length).2 = .ok ())
    (quiet : (replay (clean p) (framesOf wire.length (aborted ++ [last]))).2.providerErr.ok =
      true) : (oneRound env tools budget s).1 = .ok () := by
  have result := ((oneRound_outcome ready behind plays succeeds).result_of_safe
    ⟨undisturbed, ready.free⟩).1
  rw [result]
  simp [ErrorCode.check, quiet]

end Round

/-! ## The last attempt on its own -/

/-- The same environment in a world whose coming attempts are given. -/
def Env.playing (world : World) (start : Nat) (scripts : List Attempt) : Env :=
  { env with
    world := { world with attempts := fun n => scripts.getD (n - start) (world.attempts n) } }

theorem plays_playing (world : World) (start : Nat) (scripts : List Attempt) :
    Plays (env.playing world start scripts) start scripts := by
  intro i script found
  show scripts.getD (start + i - start) _ = script
  rw [Nat.add_sub_cancel_left, List.getD_eq_getElem?_getD, found]
  rfl

section Alone

variable {env} {s : Sys factory} {tools : List ToolSpec} {budget : Budget} {p : Adapter}
  {wire : Bytes} {aborted : List Attempt}

theorem Ready.playing (ready : Ready env s tools budget p wire) (world : World) (start : Nat)
    (scripts : List Attempt) : Ready (env.playing world start scripts) s tools budget p wire :=
  ⟨ready.free, ready.hasLoop, ready.bound, ready.request⟩

theorem Aborted.playing (behind : Aborted env p wire aborted) (world : World) (start : Nat)
    (scripts : List Attempt) : Aborted (env.playing world start scripts) p wire aborted :=
  ⟨behind.few, behind.failing, behind.quiet⟩

/-- A round may give up nothing. -/
theorem aborted_nil : Aborted env p wire [] where
  few := Nat.lt_of_lt_of_le Nat.zero_lt_one (Nat.le_max_left ..)
  failing := by simp
  quiet := rfl

end Alone

/-- The world in which nothing is cancelled. -/
def World.undisturbed (world : World) : World :=
  { world with hostCancels := fun _ => false, sinkStops := fun _ => false }

/-- A connection that takes a request of this size and answers with these frames. -/
def answering (size : Nat) (frames : List StreamFrame) : Attempt :=
  ⟨.ok (), .ok (), [.ok size], [.head 200], [⟨frames, .ok ()⟩], .ok ()⟩

theorem outcome_answering (size : Nat) (frames : List StreamFrame) :
    (answering size frames).outcome size = (frames, .ok ()) := by
  have sent : sendOutcome [.ok size] size = .ok () := by
    by_cases empty : size = 0
    · simp [sendOutcome, empty]
    · simp [sendOutcome, empty]
  have reaches : (answering size frames).reaches size = .ok () := by
    unfold Attempt.reaches answering
    dsimp only
    rw [sent]
    rfl
  unfold Attempt.outcome
  rw [reaches]
  simp [answering, bodyOutcome]

/-- The reply of the coming round when its attempts are these. -/
def replyOf (world : World) (tools : List ToolSpec) (budget : Budget) (s : Sys factory)
    (scripts : List Attempt) : Option (Bytes × List ToolCallDone × Usage × FinishReason) :=
  let ran := oneRound (env.playing world s.count.attempts scripts) tools budget s
  match ran.1 with
  | .ok _ => some ran.2.acc.reply
  | .error _ => none

section Reply

variable {env} {world : World} {s : Sys factory} {tools : List ToolSpec} {budget : Budget}
  {p : Adapter} {wire : Bytes} {aborted : List Attempt} {last : Attempt}

/-- A round replies with what all its attempts have delivered. -/
theorem eq_of_replyOf (ready : Ready env s tools budget p wire)
    (behind : Aborted env p wire aborted) (succeeds : (last.outcome wire.length).2 = .ok ())
    {reply : Bytes × List ToolCallDone × Usage × FinishReason}
    (replied : replyOf env world tools budget s (aborted ++ [last]) = some reply) :
    reply = (replay (clean p) (framesOf wire.length (aborted ++ [last]))).2.reply := by
  unfold replyOf at replied
  dsimp only at replied
  split at replied
  · next ended =>
      have acc := acc_of_returns (ready.playing world _ _) (behind.playing world _ _)
        (plays_playing env world _ _) succeeds ended
      rw [acc] at replied
      exact (Option.some.inj replied).symm
  · cases replied

/-- A round that nothing disturbs replies. -/
theorem replyOf_undisturbed (world : World) (ready : Ready env s tools budget p wire)
    (behind : Aborted env p wire aborted) (succeeds : (last.outcome wire.length).2 = .ok ())
    (quiet : (replay (clean p) (framesOf wire.length (aborted ++ [last]))).2.providerErr.ok =
      true) :
    replyOf env world.undisturbed tools budget s (aborted ++ [last]) =
      some (replay (clean p) (framesOf wire.length (aborted ++ [last]))).2.reply := by
  have plays := plays_playing env world.undisturbed s.count.attempts (aborted ++ [last])
  have returns := returns_of_undisturbed ⟨fun _ => rfl, fun _ => rfl⟩
    (ready.playing world.undisturbed _ _) (behind.playing world.undisturbed _ _) plays succeeds
    quiet
  unfold replyOf
  dsimp only
  rw [returns, acc_of_returns (ready.playing world.undisturbed _ _)
    (behind.playing world.undisturbed _ _) plays succeeds returns]

end Reply

/-- **A retried round replies as its last attempt alone exactly when the attempts before it
have left no trace.**  What they have delivered is not cleared: it must have been without
effect on the adapter and on the accumulators. -/
theorem retried_reply_iff (tools : List ToolSpec) (budget : Budget) {s : Sys factory}
    {p : Adapter} {wire : Bytes} {aborted : List Attempt}
    (ready : Ready env s tools budget p wire) (behind : Aborted env p wire aborted) :
    (∀ world last, (last.outcome wire.length).2 = .ok () → ∀ retried alone,
      replyOf env world tools budget s (aborted ++ [last]) = some retried →
      replyOf env world tools budget s [last] = some alone → retried = alone) ↔
    replay (clean p) (framesOf wire.length aborted) = clean p := by
  have collected (last : Attempt) : framesOf wire.length (aborted ++ [last]) =
      framesOf wire.length aborted ++ framesOf wire.length [last] := List.flatMap_append
  have nothing : Aborted env p wire [] := aborted_nil
  constructor
  · intro same
    refine clean_of_unobservable p _ behind.quiet fun probe told quiet => ?_
    -- The probe as the last attempt, with nobody cancelling.
    have outcome := outcome_answering wire.length probe
    have frames : framesOf wire.length [answering wire.length probe] = probe := by
      simp [framesOf, outcome]
    have succeeds : ((answering wire.length probe).outcome wire.length).2 = .ok () := by
      rw [outcome]
    have retried := replyOf_undisturbed env.world ready behind succeeds
      (by rw [collected, frames]; exact quiet)
    have alone := replyOf_undisturbed env.world ready nothing succeeds
      (by rw [List.nil_append, frames]; exact told)
    have answer := same _ _ succeeds _ _ retried alone
    rw [collected, List.nil_append, frames] at answer
    exact answer
  · intro traceless world last succeeds retried alone replied single
    rw [eq_of_replyOf ready behind succeeds replied, eq_of_replyOf ready nothing succeeds single,
      collected, replay_append, traceless]
    rfl

/-! ## A round that lost a stream -/

/-- A session with one question in it. -/
def askingEnv : Env := scriptedEnv .empty [] []

def asked : Sys factory :=
  (appendUser askingEnv (str "explain x") scriptedStart : Except Empty Unit × Sys factory).2

def askedAdapter : Adapter := .openAi (OpenAi.make (str "http://h:1") (str "k") 0 [])

def askedBudget : Budget := ⟨0, 0, 0⟩

def askedWire : Bytes :=
  match wireFor askingEnv askedAdapter asked.session.messages [] askedBudget (str "s-req1") with
  | .ok wire => wire
  | .error _ => []

theorem ready_asked : Ready askingEnv asked [] askedBudget askedAdapter askedWire where
  free := rfl
  hasLoop := rfl
  bound := by decide +kernel
  request := by decide +kernel

/-- A connection that is refused. -/
def refusedConnection : Attempt := ⟨.ok (), .error (.of .eNetConnect), [], [], [], .ok ()⟩

/-- A refused connection leaves no trace. -/
theorem retried_reply_iff_refused :
    Ready askingEnv asked [] askedBudget askedAdapter askedWire ∧
    Aborted askingEnv askedAdapter askedWire [refusedConnection] ∧
    ∀ world last, (last.outcome askedWire.length).2 = .ok () → ∀ retried alone,
      replyOf askingEnv world [] askedBudget asked ([refusedConnection] ++ [last]) = some retried →
      replyOf askingEnv world [] askedBudget asked [last] = some alone → retried = alone := by
  have refused : Aborted askingEnv askedAdapter askedWire [refusedConnection] := by
    refine ⟨by decide, ?_, rfl⟩
    intro script member
    rw [List.mem_singleton.mp member]
    exact ⟨.of .eNetConnect, rfl, rfl⟩
  exact ⟨ready_asked, refused, (retried_reply_iff askingEnv [] askedBudget ready_asked refused).mpr
    rfl⟩

/-- The text of a stream that was lost stands before the text of the next one. -/
theorem retried_reply_keeps_lost_text :
    Ready askingEnv asked [] askedBudget askedAdapter askedWire ∧
    Aborted askingEnv askedAdapter askedWire [lostStream] ∧
    ((textReply "hello").outcome askedWire.length).2 = .ok () ∧
    (replyOf askingEnv askingEnv.world [] askedBudget asked
      ([lostStream] ++ [textReply "hello"])).map Prod.fst = some (str "halfhello") ∧
    (replyOf askingEnv askingEnv.world [] askedBudget asked
      [textReply "hello"]).map Prod.fst = some (str "hello") := by
  refine ⟨ready_asked, ⟨by decide, ?_, by decide +kernel⟩, by decide +kernel, by decide +kernel,
    by decide +kernel⟩
  intro script member
  rw [List.mem_singleton.mp member]
  refine ⟨.of .eNetTimeout, ?_, rfl⟩
  decide +kernel

end Opencodepp.Agent
