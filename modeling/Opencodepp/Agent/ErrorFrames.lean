import Opencodepp.Agent.CallIds
import Opencodepp.Agent.Terminator
import Opencodepp.Provider.AnthropicStream
import Opencodepp.Provider.GeminiStream

/-!
# Error objects in a stream

A server may answer a request with an object that has an error, in the middle of a stream that is
otherwise fine.  Whether the adapter reports it depends on where the adapter looks: at the object,
at the name of the event, or nowhere.  `error_frames_iff` says for which frames the error is
reported, and that a round fails with those and only those.
-/

set_option autoImplicit false

namespace Opencodepp.Agent

open Opencodepp.Core
open Opencodepp.Library
open Opencodepp.Library.Program
open Opencodepp.Provider
open Opencodepp.Util

/-- The payload is an object with an error. -/
def HasError (frame : StreamFrame) : Prop :=
  ∃ d err, parseJson frame.data = .ok d ∧ getObj d "error" = some err

/-- The events the second family gives a meaning that is no error. -/
def plainEvents : List Bytes :=
  [str "ping", str "message_start", str "content_block_start", str "content_block_delta",
    str "content_block_stop", str "message_delta", str "message_stop"]

/-- The adapter reports an error in the frame: chat completions look at the payload, content
blocks at the event, and the third family not at all. -/
def ShowsError (p : Adapter) (frame : StreamFrame) : Prop :=
  match p with
  | .openAi _ => True
  | .anthropic _ => frame.event ∉ plainEvents
  | .gemini _ => False

/-- The events report an error. -/
def ReportsFailure (events : List StreamEvent) : Prop :=
  ∃ ec message, .providerError ec message ∈ events ∧ ec.ok = false

theorem not_reportsFailure_of_none {events : List StreamEvent} (none_ : errorsIn events = []) :
    ¬ReportsFailure events := by
  rintro ⟨ec, message, member, -⟩
  exact List.filterMap_eq_nil_iff.mp none_ _ member |> fun impossible => by cases impossible

theorem errors_of_reportsFailure {events : List StreamEvent} (fails : ReportsFailure events) :
    errorsIn events ≠ [] := fun none_ => not_reportsFailure_of_none none_ fails

/-! ## One frame -/

theorem anthropic_reportsFailure_iff (st : Anthropic.Stream) (event : Bytes) (d : JVal) :
    ReportsFailure (Anthropic.dispatch st event d).2 ↔ event ∉ plainEvents := by
  have deltas : errorsIn (Anthropic.blockDelta st d).2 = [] := by
    unfold Anthropic.blockDelta
    split
    · rfl
    · dsimp only
      split_ifs <;> rfl
  have stops : errorsIn (Anthropic.blockStop st d).2 = [] := by
    unfold Anthropic.blockStop
    dsimp only
    split <;> rfl
  constructor
  · intro fails plain
    refine errors_of_reportsFailure fails ?_
    simp only [plainEvents, List.mem_cons, List.not_mem_nil, or_false] at plain
    rcases plain with rfl | rfl | rfl | rfl | rfl | rfl | rfl
    · rfl
    · rfl
    · rfl
    · exact deltas
    · exact stops
    · rfl
    · rfl
  · intro other
    simp only [plainEvents, List.mem_cons, List.not_mem_nil, or_false, not_or] at other
    obtain ⟨ping, start, blockStart, blockDelta, blockStop, delta, stop⟩ := other
    unfold Anthropic.dispatch
    rw [if_neg ping, if_neg start, if_neg blockStart, if_neg blockDelta, if_neg blockStop,
      if_neg delta, if_neg stop]
    split
    · refine ⟨_, _, List.mem_singleton.mpr rfl, ?_⟩
      unfold Anthropic.errorCodeOf
      split
      · rfl
      · split <;> rfl
    · exact ⟨_, _, List.mem_singleton.mpr rfl, rfl⟩

/-- A frame with an error, in whatever state it meets the adapter. -/
theorem reportsFailure_iff (p : Adapter) {frame : StreamFrame} (error_ : HasError frame) :
    ReportsFailure (hear p frame).2 ↔ ShowsError p frame := by
  obtain ⟨d, err, parsed, found⟩ := error_
  cases p with
  | openAi st =>
      have noChunk : OpenAi.chunkOf frame = none := by
        unfold OpenAi.chunkOf
        rw [parsed]
        simp [found]
      obtain ⟨ec, message, emitted, failed⟩ := OpenAi.parseFrame_of_no_chunk st.stream noChunk
      refine ⟨fun _ => trivial, fun _ => ⟨ec, message, ?_, failed⟩⟩
      show _ ∈ (OpenAi.parseFrame st.stream frame).2
      rw [emitted]
      exact List.mem_cons_self
  | anthropic st =>
      have dispatched : (hear (.anthropic st) frame).2 =
          (Anthropic.dispatch st.stream frame.event d).2 := by
        show (Anthropic.parseFrame st.stream frame).2 = _
        unfold Anthropic.parseFrame
        rw [parsed]
      rw [dispatched]
      exact anthropic_reportsFailure_iff st.stream frame.event d
  | gemini st =>
      have isOk : (parseJson frame.data).isOk = true := by
        rw [parsed]
        rfl
      have none_ := (Gemini.heard_parseFrame st.stream frame).errors.mpr isOk
      exact ⟨fun fails => not_reportsFailure_of_none none_ fails, fun impossible => impossible.elim⟩

/-! ## Streams and rounds -/

theorem showsError_resetStream (p : Adapter) (frame : StreamFrame) :
    ShowsError p.resetStream frame ↔ ShowsError p frame := by
  cases p <;> exact Iff.rfl

theorem resetStream_feed (frames : List StreamFrame) : ∀ p : Adapter,
    (Machine.feed hear p frames).1.resetStream = p.resetStream := by
  induction frames with
  | nil => exact fun _ => rfl
  | cons frame rest inductionHypothesis =>
      intro p
      rw [Machine.feed_cons]
      refine (inductionHypothesis (hear p frame).1).trans ?_
      cases p <;> rfl

/-- What a stream has before does not change what is reported. -/
theorem showsError_feed (p : Adapter) (before : List StreamFrame) (frame : StreamFrame) :
    ShowsError (Machine.feed hear p before).1 frame ↔ ShowsError p frame := by
  rw [← showsError_resetStream, resetStream_feed, showsError_resetStream]

/-- An error reported anywhere in a stream is among its events. -/
theorem reportsFailure_heard {p : Adapter} {frames : List StreamFrame} {frame : StreamFrame}
    (member : frame ∈ frames) (error_ : HasError frame) (reports : ShowsError p frame) :
    ReportsFailure (heard p frames) := by
  obtain ⟨before, after, rfl⟩ := List.append_of_mem member
  obtain ⟨ec, message, emitted, failed⟩ :=
    (reportsFailure_iff (Machine.feed hear p before).1 error_).mpr
      ((showsError_feed p before frame).mpr reports)
  exact ⟨ec, message, Machine.mem_output hear p before frame after emitted, failed⟩

/-- **Which errors are reported.**  In every stream, whatever surrounds them, the frames with an
error are reported exactly when chat completions are spoken, or content blocks and the event has
no other meaning; and a round that returns has been given no frame with an error that is
reported. -/
theorem error_frames_iff (p : Adapter) (frames : List StreamFrame) :
    ((∀ before frame after, frames = before ++ frame :: after → HasError frame →
        ReportsFailure (hear (Machine.feed hear p before).1 frame).2) ↔
      ∀ frame ∈ frames, HasError frame → ShowsError p frame) ∧
    ∀ (env : Env) (tools : List ToolSpec) (budget : Budget) (s : Sys factory),
      (oneRound env tools budget s).1 = .ok () →
        ∃ q size made, boundProvider env s = .ok q ∧
          ∀ frame ∈ framesOf size (env.world.scripts (List.range' s.count.attempts made)),
            HasError frame → ¬ShowsError q frame := by
  refine ⟨⟨fun all frame member error_ => ?_, fun all before frame after split error_ => ?_⟩, ?_⟩
  · obtain ⟨before, after, split⟩ := List.append_of_mem member
    exact (showsError_feed p before frame).mp
      ((reportsFailure_iff _ error_).mp (all before frame after split error_))
  · have member : frame ∈ frames := split ▸ List.mem_append_right _ List.mem_cons_self
    exact (reportsFailure_iff _ error_).mpr
      ((showsError_feed p before frame).mpr (all frame member error_))
  · intro env tools budget s ok
    have ran : oneRound env tools budget s = (.ok (), (oneRound env tools budget s).2) :=
      Prod.ext ok rfl
    obtain ⟨q, size, made, bound, returned⟩ :=
      wp_of_returns (oneRound_returns env tools budget s) ran
    refine ⟨q, size, made, bound, fun frame member error_ reports => ?_⟩
    exact errors_of_reportsFailure
      (reportsFailure_heard member error_ ((showsError_resetStream q frame).mpr reports))
      (quiet_of_returned env returned)

/-! ## An exhausted quota -/

/-- A server that has nothing left to give. -/
def quotaFrame : StreamFrame :=
  ⟨[], toJson (jsonObject [("error", jsonObject [("code", .number 429),
    ("message", jsonStr "quota")])])⟩

/-- The third adapter takes the error for a value without content: it reports nothing, and the
task the frame answers succeeds. -/
theorem quota_taken_for_success :
    HasError quotaFrame ∧ ¬ReportsFailure (hear (.gemini geminiState) quotaFrame).2 ∧
    (drive (geminiEnv [connection [quotaFrame] (.ok ())]) 5 (str "explain x")
      scriptedStart).2.result.ec.ok = true := by
  have found : ((parseJson quotaFrame.data).toOption.bind (getObj · "error")).isSome = true := by
    decide +kernel
  refine ⟨?_, not_reportsFailure_of_none (by decide +kernel), by decide +kernel⟩
  cases parsed : parseJson quotaFrame.data with
  | error e =>
      rw [parsed] at found
      cases found
  | ok d =>
      rw [parsed] at found
      obtain ⟨err, has⟩ := Option.isSome_iff_exists.mp found
      exact ⟨d, err, parsed, has⟩

end Opencodepp.Agent
