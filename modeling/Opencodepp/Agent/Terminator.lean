import Opencodepp.Agent.Deliveries
import Opencodepp.Agent.Replay
import Opencodepp.Agent.Scripted
import Opencodepp.Net.Sse
import Opencodepp.Provider.OpenAiStream

/-!
# The end of a compatible stream

Servers of the compatible family end a stream with a frame that is no chunk.  It goes the way of
all frames: from the bytes through the stream parser into the adapter, which reports an error
for it, and the round fails (`terminated_never_succeeds`).
-/

set_option autoImplicit false

namespace Opencodepp.Agent

open Opencodepp.Core
open Opencodepp.Library
open Opencodepp.Library.Program
open Opencodepp.Net
open Opencodepp.Net.SseParser
open Opencodepp.Provider
open Opencodepp.Util

variable (env : Env)

/-! ## From the bytes to the frames -/

/-- The frame of an event of the stream. -/
def frameOf (ev : SseEvent) : StreamFrame := ⟨ev.event, ev.data⟩

/-- What the pieces of a body make the parser hand over, and what it returns for each. -/
def bodySteps (sp : SseParser) : List Bytes → List BodyStep
  | [] => []
  | piece :: rest =>
      ⟨(sp.feed false piece).2.1.map frameOf, (sp.feed false piece).2.2⟩ ::
        bodySteps (sp.feed false piece).1 rest

/-- A body that ends well delivers what the parser makes of its pieces. -/
theorem bodyOutcome_bodySteps (pieces : List Bytes) : ∀ sp : SseParser,
    bodyOutcome (bodySteps sp pieces) (.ok ()) =
      ((sp.feedAll pieces).2.1.map frameOf, (sp.feedAll pieces).2.2) := by
  induction pieces with
  | nil =>
      intro sp
      rfl
  | cons piece rest inductionHypothesis =>
      intro sp
      unfold bodySteps bodyOutcome feedAll
      obtain ⟨sp', events, after⟩ := sp.feed false piece
      cases after with
      | error e => rfl
      | ok _ =>
          dsimp only
          rw [inductionHypothesis, List.map_append]

/-! ## Streams of chunks -/

/-- The frame that ends a stream. -/
def terminator : Bytes := str "data: [DONE]\n\n"

/-- A stream of whole frames, and all of them chunks. -/
structure ChunkStream (body : Bytes) : Prop where
  ended : unfinished lineFeed body = []
  closed : unfinished [] (linesOf body) = []
  chunks : ∀ ev ∈ reference .sse body, (OpenAi.chunkOf (frameOf ev)).isSome = true

theorem linesOf_terminated {body : Bytes} (ended : unfinished lineFeed body = []) :
    linesOf (body ++ terminator) = linesOf body ++ [str "data: [DONE]", []] := by
  have last : (finished lineFeed terminator).map stripReturn = [str "data: [DONE]", []] := by
    decide
  rw [linesOf_eq, linesOf_eq, (finished_unfinished_append body terminator).1, ended, List.nil_append, List.map_append, last]

/-- The terminator is one more event of the stream. -/
theorem reference_terminated {body : Bytes} (chunked : ChunkStream body) :
    reference .sse (body ++ terminator) = reference .sse body ++ [⟨[], [], str "[DONE]"⟩] := by
  have last : (finished [] [str "data: [DONE]", []]).filterMap frameEvent =
      [⟨[], [], str "[DONE]"⟩] := by decide
  show (finished [] (linesOf (body ++ terminator))).filterMap frameEvent = _
  rw [linesOf_terminated chunked.ended, (finished_unfinished_append (linesOf body) _).1,
    chunked.closed, List.nil_append, List.filterMap_append, last]
  rfl

theorem chunkOf_terminator : OpenAi.chunkOf (frameOf ⟨[], [], str "[DONE]"⟩) = none := by
  decide

/-- The frames of a terminated stream are not all chunks. -/
theorem not_chunks_of_terminated {maxFrame maxEvents : Nat} {pieces : List Bytes} {body : Bytes}
    (chunked : ChunkStream body) (whole : pieces.flatten = body ++ terminator)
    (taken : ((fresh .sse maxFrame maxEvents).feedAll pieces).2.2 = .ok ()) :
    ¬∀ frame ∈ ((fresh .sse maxFrame maxEvents).feedAll pieces).2.1.map frameOf,
      (OpenAi.chunkOf frame).isSome = true := by
  intro all
  have delivered := (sse_delivers_reference .sse maxFrame maxEvents pieces).2 taken
  rw [whole, reference_terminated chunked] at delivered
  have last := all (frameOf ⟨[], [], str "[DONE]"⟩)
    (List.mem_map_of_mem (by rw [delivered]; exact List.mem_append_right _ List.mem_cons_self))
  rw [chunkOf_terminator] at last
  cases last

/-! ## Rounds -/

/-- A server that answers an attempt with a terminated stream of chunks. -/
def Terminates (script : Attempt) : Prop :=
  ∃ maxFrame maxEvents pieces body, ChunkStream body ∧ pieces.flatten = body ++ terminator ∧
    script.body = bodySteps (.fresh .sse maxFrame maxEvents) pieces ∧ script.bodyEnd = .ok ()

/-- An attempt that ends well has delivered the terminator. -/
theorem Terminates.frames {script : Attempt} (terminates : Terminates script) {size : Nat}
    (well : (script.outcome size).2 = .ok ()) :
    ¬∀ frame ∈ (script.outcome size).1, (OpenAi.chunkOf frame).isSome = true := by
  obtain ⟨maxFrame, maxEvents, pieces, body, chunked, whole, steps, ended⟩ := terminates
  unfold Attempt.outcome at well ⊢
  cases reached : script.reaches size with
  | error e =>
      rw [reached] at well
      cases well
  | ok _ =>
      rw [reached] at well
      dsimp only at well ⊢
      rw [steps, ended, bodyOutcome_bodySteps] at well ⊢
      exact not_chunks_of_terminated chunked whole well

/-- The frames a round is given before it returns make the adapter report no error. -/
theorem quiet_of_returned {p : Adapter} {size made : Nat} {s s' : Sys factory}
    (returned : Returned env p size made s s') :
    errorsIn (heard p.resetStream
      (framesOf size (env.world.scripts (List.range' s.count.attempts made)))) = [] := by
  have stream := Line.stream_tried size (env.world.scripts (List.range' s.count.attempts made))
    (s.stream_requesting env p)
  rw [← returned.line] at stream
  have quiet := returned.quiet
  rw [(provider_of_stream stream).2] at quiet
  exact (quiet_replay p.resetStream _).mp quiet

/-- **A terminated stream of chunks never succeeds.**  However it is cut, and whatever the limits
are, the parser refuses it or the adapter reports an error; and no round that is answered by
such streams returns. -/
theorem terminated_never_succeeds {pieces : List Bytes} {body : Bytes}
    (chunked : ChunkStream body) (whole : pieces.flatten = body ++ terminator) :
    (∀ (maxFrame maxEvents : Nat) (st : OpenAi.State),
      ¬(((fresh .sse maxFrame maxEvents).feedAll pieces).2.2 = .ok () ∧
        errorsIn (heard (.openAi st)
          (((fresh .sse maxFrame maxEvents).feedAll pieces).2.1.map frameOf)) = [])) ∧
    ∀ (env : Env) (s : Sys factory) (st : OpenAi.State), boundProvider env s = .ok (.openAi st) →
      (∀ n, s.count.attempts ≤ n → Terminates (env.world.attempts n)) →
      ∀ (tools : List ToolSpec) (budget : Budget), (oneRound env tools budget s).1 ≠ .ok () := by
  refine ⟨fun maxFrame maxEvents st both => ?_, fun env s st bound serves tools budget ok => ?_⟩
  · obtain ⟨taken, quiet⟩ := both
    refine not_chunks_of_terminated chunked whole taken ?_
    rw [heard_openAi] at quiet
    exact (OpenAi.errorsIn_feed _ _).mp quiet
  · have ran : oneRound env tools budget s = (.ok (), (oneRound env tools budget s).2) :=
      Prod.ext ok rfl
    obtain ⟨p, size, made, bound', returned⟩ :=
      wp_of_returns (oneRound_returns env tools budget s) ran
    rw [bound] at bound'
    cases bound'
    have quiet := quiet_of_returned env returned
    rw [show (Adapter.openAi st).resetStream = .openAi { st with stream := .reset } from rfl,
      heard_openAi] at quiet
    have chunks := (OpenAi.errorsIn_feed _ _).mp quiet
    obtain ⟨before, rfl, well⟩ := returned.last
    refine (serves _ (Nat.le_add_right _ before)).frames well fun frame member => chunks frame ?_
    unfold framesOf
    refine List.mem_flatMap.mpr ⟨_, ?_, member⟩
    rw [World.scripts_concat]
    exact List.mem_append_right _ List.mem_cons_self

/-! ## A short stream -/

/-- A piece of text and the end of the message. -/
def shortBody : Bytes :=
  str "data: " ++ (textFrame "hi").data ++ str "\n\ndata: " ++ (endFrame "stop" 3 4).data ++
    str "\n\n"

theorem chunkStream_shortBody : ChunkStream shortBody where
  ended := by decide +kernel
  closed := by decide +kernel
  chunks := by decide +kernel

/-- A connection that delivers the short stream with its terminator. -/
def terminatedReply : Attempt :=
  { connection [] (.ok ()) with
    body := bodySteps (fresh .sse (4 * 1024 * 1024) 0) [shortBody ++ terminator] }

/-- The short stream is taken whole, an error is reported for its terminator, and the task it
answers fails. -/
theorem terminated_reply_fails :
    ChunkStream shortBody ∧
    ((fresh .sse (4 * 1024 * 1024) 0).feedAll [shortBody ++ terminator]).2.2.isOk = true ∧
    ¬errorsIn (heard (.openAi (OpenAi.make [] [] 0 []))
      (((fresh .sse (4 * 1024 * 1024) 0).feedAll [shortBody ++ terminator]).2.1.map frameOf)) =
        [] ∧
    (drive (scriptedEnv .empty [terminatedReply] []) 3 (str "explain x")
      scriptedStart).2.result.ec.ok = false :=
  ⟨chunkStream_shortBody, by decide +kernel, by decide +kernel, by decide +kernel⟩

theorem terminated_never_succeeds_short :
    ¬(((fresh .sse (4 * 1024 * 1024) 0).feedAll [shortBody ++ terminator]).2.2 = .ok () ∧
      errorsIn (heard (.openAi (OpenAi.make [] [] 0 []))
        (((fresh .sse (4 * 1024 * 1024) 0).feedAll [shortBody ++ terminator]).2.1.map frameOf)) =
          []) := by
  have whole : [shortBody ++ terminator].flatten = shortBody ++ terminator := List.append_nil _
  exact (terminated_never_succeeds chunkStream_shortBody whole).1 _ _ _

end Opencodepp.Agent
