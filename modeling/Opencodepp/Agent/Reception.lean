import Opencodepp.Agent.Terminator
import Opencodepp.Net.Drain

/-!
# From the bytes of a connection to the round

The loop of the agent is written over attempts whose head reads and body steps are given.  Here
they come from the bytes that a connection brings: the response parser is fed with the reads, and
what it hands on goes through the stream parser.  An attempt made so ends as draining the bytes
ends, with the frames that the stream parser delivers (`outcome_attempt`).

A round that returns has therefore had a whole response: the bytes of its last connection are a
response with a good status, and what the adapter has heard last are the events of its body
(`round_hears_response`).
-/

set_option autoImplicit false

namespace Opencodepp.Agent

open Opencodepp.Core
open Opencodepp.Library
open Opencodepp.Library.Program
open Opencodepp.Net
open Opencodepp.Net.HttpParser
open Opencodepp.Net.SseParser
open Opencodepp.Provider

/-! ## Connections -/

/-- What the network does in one attempt: the calls on the socket, and the reads of the
transport. -/
structure Connection where
  opened : Except Failure Unit
  connected : Except Failure Unit
  sends : List (Except Failure Nat)
  reads : List Read

/-- The kind of stream a provider answers with. -/
def streamKind : Adapter → StreamKind
  | .anthropic _ => .sse
  | .openAi _ => .sse
  | .gemini _ => .jsonl

/-- The parser a call makes for its stream. -/
def streamParser (kind : StreamKind) : SseParser := .fresh kind (4 * 1024 * 1024) 0

/-- What a read of the head comes to, up to its end. -/
def headReads (p : HttpParser) : List Read → List HeadRead
  | [] => []
  | .error e :: _ => [.fail e]
  | .ok piece :: rest =>
      if piece = [] then [.eof]
      else
        match p.feed piece with
        | (_, some (.refused e)) => [.fail e]
        | (_, some .lengthError) => []
        | (q, none) => if q.headDone then [.head q.head.code] else .more :: headReads q rest

/-- The consumer of `sse_stream`: it feeds the stream parser.  The steps are kept beside it. -/
def intoStream (s : SseParser × List BodyStep) (piece : Bytes) :
    (SseParser × List BodyStep) × Except Failure Unit :=
  (((s.1.feed false piece).1,
      s.2 ++ [⟨(s.1.feed false piece).2.1.map frameOf, (s.1.feed false piece).2.2⟩]),
    (s.1.feed false piece).2.2)

/-- The attempt that a connection amounts to.  None where the response parser throws. -/
def Connection.attempt (c : Connection) (kind : StreamKind) : Option Attempt :=
  let script (body : List BodyStep) (bodyEnd : Except Failure Unit) : Attempt :=
    ⟨c.opened, c.connected, c.sends, headReads (.fresh maxBodyBytes) c.reads, body, bodyEnd⟩
  match (HttpParser.fresh maxBodyBytes).readHead c.reads with
  | .error .lengthError => none
  | .error (.refused _) => some (script [] (.ok ()))
  | .ok (p, rest) =>
      match HttpParser.drainBody intoStream p (streamParser kind, []) rest with
      | (_, .error .lengthError) => none
      | (s, .error (.refused e)) => some (script s.2 (.error e))
      | (s, .ok _) => some (script s.2 (.ok ()))

/-! ## What comes of the bytes -/

/-- The head is read as its reads say. -/
theorem readOutcome_headReads (reads : List Read) : ∀ {p q : HttpParser} {rest : List Read},
    p.readHead reads = .ok (q, rest) → readOutcome (headReads p reads) = .ok q.head.code := by
  induction reads with
  | nil =>
      intro p q rest headed
      cases headed
  | cons read reads inductionHypothesis =>
      intro p q rest headed
      cases read with
      | error e => cases headed
      | ok piece =>
          unfold HttpParser.readHead at headed
          unfold headReads
          split at headed
          · cases headed
          · next some_ =>
              rw [if_neg some_]
              cases fed : p.feed piece with
              | mk r stop =>
                  rw [fed] at headed
                  cases stop with
                  | some stop => cases headed
                  | none =>
                      dsimp only at headed ⊢
                      split at headed
                      · next done =>
                          cases headed
                          rw [if_pos done]
                          rfl
                      · next open_ =>
                          rw [if_neg open_]
                          exact inductionHypothesis headed

theorem readOutcome_refused (reads : List Read) : ∀ {p : HttpParser} {e : Failure},
    p.readHead reads = .error (.refused e) → readOutcome (headReads p reads) = .error e := by
  induction reads with
  | nil =>
      intro p e headed
      cases headed
      rfl
  | cons read reads inductionHypothesis =>
      intro p e headed
      cases read with
      | error e =>
          cases headed
          rfl
      | ok piece =>
          unfold HttpParser.readHead at headed
          unfold headReads
          split at headed
          · next atEnd =>
              cases headed
              rw [if_pos atEnd]
              rfl
          · next some_ =>
              rw [if_neg some_]
              cases fed : p.feed piece with
              | mk r stop =>
                  rw [fed] at headed
                  cases stop with
                  | some stop =>
                      cases headed
                      rfl
                  | none =>
                      dsimp only at headed ⊢
                      split at headed
                      · cases headed
                      · next open_ =>
                          rw [if_neg open_]
                          exact inductionHypothesis headed

/-- A body whose end fails does not end well. -/
theorem bodyOutcome_failed (steps : List BodyStep) (e : Failure) :
    (bodyOutcome steps (.error e)).2 ≠ .ok () := by
  induction steps with
  | nil =>
      intro good
      cases good
  | cons step rest inductionHypothesis =>
      unfold bodyOutcome
      cases step.after with
      | error e =>
          intro good
          cases good
      | ok done => exact inductionHypothesis

/-- Pieces that were all accepted are calls that all went well. -/
theorem accepted_feedAll {pieces : List Bytes} : ∀ {sp : SseParser} {past : List BodyStep}
    {s : SseParser × List BodyStep}, Accepts intoStream (sp, past) pieces s →
      s.2 = past ++ bodySteps sp pieces ∧ (sp.feedAll pieces).2.2 = .ok () := by
  induction pieces with
  | nil =>
      intro sp past s accepts
      cases accepts
      exact ⟨(List.append_nil past).symm, rfl⟩
  | cons piece rest inductionHypothesis =>
      intro sp past s accepts
      cases accepts with
      | step accepted further =>
          have result : (sp.feed false piece).2.2 = .ok () := congrArg Prod.snd accepted
          cases congrArg Prod.fst accepted
          obtain ⟨steps, well⟩ := inductionHypothesis further
          refine ⟨?_, ?_⟩
          · rw [steps, List.append_assoc]
            rfl
          · unfold SseParser.feedAll
            rcases fed : sp.feed false piece with ⟨sp', events, after⟩
            rw [fed] at result well
            cases result
            exact well

/-- An attempt that gets to its body has read a head with a good status. -/
theorem reaches_ok {script : Attempt} {size : Nat} (reached : script.reaches size = .ok ()) :
    ∃ code, readOutcome script.reads = .ok code ∧ (httpStatusError code).check = .ok () := by
  unfold Attempt.reaches at reached
  split at reached
  · cases reached
  · cases reached
  · cases reached
  · cases reached
  · next code _ _ _ read => exact ⟨code, read, reached⟩

/-- An attempt that ends well has got to its body, and the body has ended well. -/
theorem outcome_ok {script : Attempt} {size : Nat} (well : (script.outcome size).2 = .ok ()) :
    script.reaches size = .ok () ∧
      script.outcome size = bodyOutcome script.body script.bodyEnd := by
  unfold Attempt.outcome at well ⊢
  cases reached : script.reaches size with
  | error e =>
      rw [reached] at well
      cases well
  | ok done => exact ⟨rfl, rfl⟩

/-- **An attempt that ends well has had a whole response**, and the frames it delivers are the
events of its body. -/
theorem outcome_attempt {c : Connection} {kind : StreamKind} {script : Attempt} {size : Nat}
    (plain : PlainHead (received c.reads)) (made : c.attempt kind = some script)
    (well : (script.outcome size).2 = .ok ()) :
    ∃ st body, IsResponse maxBodyBytes (received c.reads) st body ∧
      (httpStatusError st.code).check = .ok () ∧
      (script.outcome size).1 = (reference kind body).map frameOf := by
  obtain ⟨reached, delivered⟩ := outcome_ok well
  obtain ⟨code, read, good⟩ := reaches_ok reached
  rw [delivered] at well
  unfold Connection.attempt at made
  dsimp only at made
  cases headed : (HttpParser.fresh maxBodyBytes).readHead c.reads with
  | error stop =>
      rw [headed] at made
      cases stop with
      | lengthError => cases made
      | refused e =>
          cases made
          cases read.symm.trans (readOutcome_refused c.reads headed)
  | ok found =>
      obtain ⟨p, rest⟩ := found
      rw [headed] at made
      dsimp only at made
      cases drained : HttpParser.drainBody intoStream p (streamParser kind, []) rest with
      | mk s result =>
          rw [drained] at made
          cases result with
          | error stop =>
              cases stop with
              | lengthError => cases made
              | refused e =>
                  cases made
                  exact absurd well (bodyOutcome_failed s.2 e)
          | ok done =>
              cases made
              have code_ : code = p.head.code :=
                Except.ok.inj (read.symm.trans (readOutcome_headReads c.reads headed))
              obtain ⟨pieces, response, accepts⟩ :=
                drained_isResponse plain (headed_readHead c.reads headed) drained
              obtain ⟨steps, taken⟩ := accepted_feedAll accepts
              refine ⟨p.head, pieces.flatten, response, code_ ▸ good, ?_⟩
              rw [delivered]
              dsimp only
              rw [steps, List.nil_append, bodyOutcome_bodySteps]
              exact congrArg (List.map frameOf)
                ((sse_delivers_reference kind (4 * 1024 * 1024) 0 pieces).2 taken)

/-! ## A round -/

variable (env : Env)

/-- **A round that returns has heard a whole response.**  The bytes of its last connection are a
response with a good status, and what the adapter was given last, after the frames of the
attempts before it, are the events of that response's body, each once and in order. -/
theorem round_hears_response {s s' : Sys factory} {p : Adapter} {tools : List ToolSpec}
    {budget : Budget} (links : Nat → Connection) (bound : boundProvider env s = .ok p)
    (served : ∀ n, s.count.attempts ≤ n →
      (links n).attempt (streamKind p) = some (env.world.attempts n))
    (plain : ∀ n, PlainHead (received (links n).reads))
    (ran : oneRound env tools budget s = (.ok (), s')) :
    ∃ before size st body,
      IsResponse maxBodyBytes (received (links (s.count.attempts + before)).reads) st body ∧
      (httpStatusError st.code).check = .ok () ∧
      s'.session.provider.map (fun q => (q, s'.acc)) = some (replay (clean p)
        (framesOf size (env.world.scripts (List.range' s.count.attempts before)) ++
          (reference (streamKind p) body).map frameOf)) := by
  obtain ⟨p', size, made, bound', returned⟩ :=
    wp_of_returns (oneRound_returns env tools budget s) ran
  cases bound.symm.trans bound'
  obtain ⟨before, rfl, well⟩ := returned.last
  obtain ⟨st, body, response, good, frames⟩ := outcome_attempt
    (plain (s.count.attempts + before)) (served _ (Nat.le_add_right _ before)) well
  refine ⟨before, size, st, body, response, good, ?_⟩
  have stream := Line.stream_tried size
    (env.world.scripts (List.range' s.count.attempts (before + 1))) (s.stream_requesting env p)
  rw [← returned.line, World.scripts_concat] at stream
  refine stream.trans ?_
  unfold framesOf
  rw [List.flatMap_append, List.flatMap_singleton, frames]

/-- A connection that brings the short stream in two reads, and closes behind it. -/
def closingLink : Connection where
  opened := .ok ()
  connected := .ok ()
  sends := [.ok (2 ^ 20)]
  reads := [.ok (str "HTTP/1.1 200 OK\r\n\r\nda"), .ok (shortBody.drop 2), .ok []]

/-- An environment whose every request meets one answer. -/
def answeredBy (reply : Attempt) : Env :=
  let env := scriptedEnv .empty [] []
  { env with world := { env.world with attempts := fun _ => reply } }

theorem answeredBy_attempts (reply : Attempt) (n : Nat) :
    (answeredBy reply).world.attempts n = reply := rfl

/-- The answer of that connection. -/
def closingReply : Attempt := (closingLink.attempt .sse).getD (textReply "")

/-- The environment whose every request meets that answer. -/
def closingEnv : Env := answeredBy closingReply

theorem attempt_closingLink : closingLink.attempt .sse = some closingReply := by
  have made : (closingLink.attempt .sse).isSome = true := by decide +kernel
  obtain ⟨script, same⟩ := Option.isSome_iff_exists.mp made
  unfold closingReply
  rw [same]
  rfl

theorem plainHead_closingLink : PlainHead (received closingLink.reads) := by
  rintro i j ⟨bare, blank, before⟩
  have bare' : indexOf [lineFeed, lineFeed] (received closingLink.reads) = some 65 := by
    decide +kernel
  have blank' : indexOf (crlf ++ crlf) (received closingLink.reads) = some 15 := by decide +kernel
  cases bare.symm.trans bare'
  cases blank.symm.trans blank'
  exact absurd before (by decide)

/-- The adapter of the closing connection's task. -/
def closingAdapter : Adapter := .openAi (OpenAi.make (str "http://h:1") (str "k") 0 [])

theorem served_closingLink (n : Nat) :
    closingLink.attempt (streamKind closingAdapter) = some (closingEnv.world.attempts n) := by
  have kind : streamKind closingAdapter = .sse := rfl
  rw [kind, attempt_closingLink]
  exact congrArg some (answeredBy_attempts closingReply n).symm

/-- A round that the closing connection answers has heard its events. -/
theorem round_hears_response_short :
    ∃ s' before size st body,
      oneRound closingEnv [] ⟨0, 0, 0⟩ scriptedStart = (.ok (), s') ∧
      IsResponse maxBodyBytes (received closingLink.reads) st body ∧
      s'.session.provider.map (fun q => (q, s'.acc)) = some (replay (clean closingAdapter)
        (framesOf size
            (closingEnv.world.scripts (List.range' scriptedStart.count.attempts before)) ++
          (reference (streamKind closingAdapter) body).map frameOf)) := by
  have well : (oneRound closingEnv [] ⟨0, 0, 0⟩ scriptedStart).1.isOk = true := by decide +kernel
  have bound : boundProvider closingEnv scriptedStart = .ok closingAdapter := rfl
  rcases ran : oneRound closingEnv [] ⟨0, 0, 0⟩ scriptedStart with ⟨e | done, s'⟩
  · rw [ran] at well
    cases well
  · obtain ⟨before, size, st, body, response, -, heard⟩ :=
      round_hears_response closingEnv (fun _ => closingLink) bound
        (fun n _ => served_closingLink n) (fun _ => plainHead_closingLink) ran
    exact ⟨s', before, size, st, body, rfl, response, heard⟩

end Opencodepp.Agent
