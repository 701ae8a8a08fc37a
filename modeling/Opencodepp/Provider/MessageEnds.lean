import Opencodepp.Provider.AnthropicStream
import Opencodepp.Provider.GeminiStream
import Opencodepp.Provider.Stitching
import Opencodepp.Provider.Factory

/-!
# The end of a message

A stream in which some frame ends the message should end it once, and release every call it has
received by then once.  The three adapters tell the end differently: the first known finish
reason, every frame that says so, and the first finish reason at all.  `endedOnce_iff` says for
which streams each of them gets it right.
-/

set_option autoImplicit false

namespace Opencodepp.Provider

open Opencodepp.Core
open Opencodepp.Library
open Opencodepp.Library.OrderedMap
open Opencodepp.Util

/-! ## Calls with their indices -/

namespace OpenAi

/-- The message ends with the frame: some finish reason, known or not. -/
def endsMessage (frame : StreamFrame) : Bool :=
  ((chunkOf frame).map fun d => (reasons d).any (· ≠ [])).getD false

/-- The calls a frame emits, each with the index it is kept under. -/
def keyed (result : Stream × List StreamEvent) : List (UInt64 × ToolCallDone) :=
  (result.1.pending.map Prod.fst).zip (callsIn result.2)

/-- The calls a stream emits, with their indices. -/
def emissions (st : Stream) : List StreamFrame → List (UInt64 × ToolCallDone)
  | [] => []
  | frame :: rest => keyed (parseFrame st frame) ++ emissions (parseFrame st frame).1 rest

/-- The finished calls of a map of calls. -/
def finishedCalls (pending : Pending) : List (UInt64 × ToolCallDone) :=
  pending.map fun entry => (entry.1, entry.2.done)

theorem keyed_of_no_chunk (st : Stream) {frame : StreamFrame} (other : chunkOf frame = none) :
    keyed (parseFrame st frame) = [] ∧ callsIn (parseFrame st frame).2 = [] := by
  obtain ⟨ec, message, parsed, -⟩ := parseFrame_of_no_chunk st other
  rw [parsed]
  exact ⟨List.zip_nil_right, rfl⟩

theorem keyed_of_chunk (st : Stream) {frame : StreamFrame} {d : JVal}
    (isChunk : chunkOf frame = some d) :
    keyed (parseFrame st frame) =
        (if (st.after d).finish ≠ .unknown && !st.doneEmitted then
          finishedCalls (st.after d).pending else []) ∧
      callsIn (parseFrame st frame).2 =
        (if (st.after d).finish ≠ .unknown && !st.doneEmitted then
          (finishedCalls (st.after d).pending).map Prod.snd else []) := by
  obtain ⟨deltas, all, parsed⟩ := parseFrame_of_chunk st isChunk
  have done : (finishedCalls (st.after d).pending).map Prod.snd =
      (st.after d).pending.map fun entry => entry.2.done := by
    unfold finishedCalls
    rw [List.map_map]
    rfl
  rw [parsed]
  unfold keyed
  rw [callsIn_append, callsIn_of_deltas all, List.nil_append, done]
  split
  · refine ⟨?_, ?_⟩
    · rw [callsIn_append, callsIn_calls, callsIn_messageDone, List.append_nil]
      exact List.zip_map'
    · rw [callsIn_append, callsIn_calls, callsIn_messageDone, List.append_nil]
  · exact ⟨List.zip_nil_right, rfl⟩

/-- The emissions are the calls that are emitted. -/
theorem emissions_snd (frames : List StreamFrame) : ∀ st : Stream,
    (emissions st frames).map Prod.snd = callsIn (Machine.feed parseFrame st frames).2 := by
  induction frames with
  | nil => exact fun _ => rfl
  | cons frame rest inductionHypothesis =>
      intro st
      have now : (keyed (parseFrame st frame)).map Prod.snd = callsIn (parseFrame st frame).2 := by
        cases isChunk : chunkOf frame with
        | none =>
            obtain ⟨keys, calls⟩ := keyed_of_no_chunk st isChunk
            rw [keys, calls]
            rfl
        | some d =>
            obtain ⟨keys, calls⟩ := keyed_of_chunk st isChunk
            rw [keys, calls]
            split <;> rfl
      unfold emissions
      rw [List.map_append, now, inductionHypothesis, Machine.feed_cons, callsIn_append]

theorem emissions_of_emitted (frames : List StreamFrame) {st : Stream}
    (emitted : st.doneEmitted = true) : emissions st frames = [] := by
  have none_ := congrArg Prod.fst (decided_of_emitted frames emitted)
  have calls : callsIn (Machine.feed parseFrame st frames).2 = [] := none_
  rw [← emissions_snd] at calls
  exact List.map_eq_nil_iff.mp calls

/-- **The calls that count, with their indices.** -/
theorem emissions_eq (frames : List StreamFrame) : ∀ {st : Stream}, st.finish = .unknown →
    st.doneEmitted = false → emissions st frames =
      match untilFinish (chunksOf frames) with
      | none => []
      | some head => finishedCalls (gather st.pending (head.flatMap fragments)) := by
  induction frames with
  | nil =>
      intro st _ _
      rfl
  | cons frame rest inductionHypothesis =>
      intro st unknown open_
      unfold emissions
      cases isChunk : chunkOf frame with
      | none =>
          have skipped : chunksOf (frame :: rest) = chunksOf rest :=
            List.filterMap_cons_none isChunk
          obtain ⟨ec, message, parsed, -⟩ := parseFrame_of_no_chunk st isChunk
          rw [(keyed_of_no_chunk st isChunk).1, List.nil_append, skipped, parsed]
          exact inductionHypothesis unknown open_
      | some d =>
          have taken : chunksOf (frame :: rest) = d :: chunksOf rest :=
            List.filterMap_cons_some isChunk
          obtain ⟨deltas, -, parsed⟩ := parseFrame_of_chunk st isChunk
          have next : (parseFrame st frame).1 = st.after d := by rw [parsed]
          have finish : (st.after d).finish = settle .unknown (reasons d) := by
            show settle st.finish (reasons d) = _
            rw [unknown]
          rw [(keyed_of_chunk st isChunk).1, next, taken, open_]
          cases known : finishes d with
          | true =>
              have reached : (st.after d).finish ≠ .unknown := by
                rw [finish]
                exact (settle_ne_unknown _).mpr known
              have emitted : (st.after d).doneEmitted = true := by
                have later : settle st.finish (reasons d) ≠ .unknown := reached
                unfold Stream.after
                simp [later]
              have found : untilFinish (d :: chunksOf rest) = some [d] := by
                simp [untilFinish, known]
              rw [emissions_of_emitted rest emitted, List.append_nil, found,
                if_pos (by simpa using reached)]
              simp [Stream.after]
          | false =>
              have still : (st.after d).finish = .unknown := by
                rw [finish]
                by_contra reached
                have := (settle_ne_unknown _).mp reached
                rw [show (reasons d).any _ = finishes d from rfl, known] at this
                cases this
              have quiet : (st.after d).doneEmitted = false := by
                have same : settle st.finish (reasons d) = .unknown := still
                unfold Stream.after
                simp [open_, same]
              have skipped : untilFinish (d :: chunksOf rest) =
                  (untilFinish (chunksOf rest)).map (d :: ·) := by simp [untilFinish, known]
              rw [if_neg (by simpa using still), List.nil_append,
                inductionHypothesis still quiet, skipped]
              cases untilFinish (chunksOf rest) with
              | none => rfl
              | some head =>
                  show _ = finishedCalls (gather st.pending (fragments d ++ head.flatMap fragments))
                  rw [gather_append]
                  rfl

/-- The calls emitted under an index: what its fragments that count come to. -/
theorem emissions_filter {frames : List StreamFrame} (known : (chunksOf frames).any finishes = true)
    (i : UInt64) : (emissions .reset frames).filter (fun emission => emission.1 = i) =
      ((assembled i ((counted (chunksOf frames)).flatMap fragments)).map
        fun pt => (i, pt.done)).toList := by
  have emitted : emissions .reset frames =
      match untilFinish (chunksOf frames) with
      | none => []
      | some head => finishedCalls (gather Stream.reset.pending (head.flatMap fragments)) :=
    emissions_eq frames rfl rfl
  obtain ⟨head, found⟩ := Option.isSome_iff_exists.mp ((untilFinish_isSome _).trans known)
  have counts : counted (chunksOf frames) = head := by
    unfold counted
    rw [found]
    rfl
  rw [found] at emitted
  rw [emitted, counts, ← lookup_gather_nil]
  have entries := filter_key i (ascending_gather (head.flatMap fragments) List.Pairwise.nil)
  have moved : (finishedCalls (gather Stream.reset.pending (head.flatMap fragments))).filter
      (fun emission => emission.1 = i) =
        finishedCalls ((gather [] (head.flatMap fragments)).filter fun entry => entry.1 = i) := by
    unfold finishedCalls
    rw [List.filter_map]
    rfl
  rw [moved, entries]
  cases (gather [] (head.flatMap fragments)).lookup i <;> rfl

end OpenAi

/-! ## The three adapters -/

/-- The message ends with the frame. -/
def EndsMessage : Adapter → StreamFrame → Bool
  | .anthropic _ => Anthropic.endsMessage
  | .openAi _ => OpenAi.endsMessage
  | .gemini _ => Gemini.endsMessage

/-- The fragments of the call with this index have all come before a frame that ends the
message. -/
def OpenAi.Complete (frames : List StreamFrame) (i : UInt64) (before : List StreamFrame) : Prop :=
  ∃ frame after, frames = before ++ frame :: after ∧ endsMessage frame = true ∧
    i ∈ indices (chunksOf before) ∧ i ∉ indices (chunksOf (frame :: after))

/-- Every call that is complete before the end of the message is emitted once, as what its
fragments come to.  Where the pieces of a call have an index it is told by that; a block is
complete when it is stopped, and a function call arrives whole. -/
def CallsOnce : Adapter → List StreamFrame → Prop
  | .openAi st, frames =>
      (OpenAi.emissions .reset frames).map Prod.snd =
          callsIn (heard (Adapter.openAi st).resetStream frames) ∧
        ∀ i before, OpenAi.Complete frames i before → ∃ pt : PendingTool,
          OpenAi.assembled i ((OpenAi.chunksOf before).flatMap OpenAi.fragments) = some pt ∧
            (OpenAi.emissions .reset frames).filter (fun emission => emission.1 = i) = [(i, pt.done)]
  | .anthropic st, frames =>
      callsIn (heard (Adapter.anthropic st).resetStream frames) =
        Anthropic.closedCalls [] (frames.filterMap Anthropic.blockStep)
  | .gemini st, frames =>
      (callsIn (heard (Adapter.gemini st).resetStream frames)).map
          (fun call => (call.name, call.inputJson)) = frames.flatMap Gemini.callsOf

/-- A new stream of these frames ends its message once, with all calls. -/
structure EndedOnce (p : Adapter) (frames : List StreamFrame) : Prop where
  done : (endingsIn (heard p.resetStream frames)).length = 1
  calls : CallsOnce p frames

/-- The streams whose message is ended once.  Chat completions: some finish reason is known, and
the fragments that come by then make up every complete call.  Content blocks: one frame ends the
message. -/
def EndsOnce : Adapter → List StreamFrame → Prop
  | .openAi _, frames =>
      (∃ d ∈ OpenAi.chunksOf frames, OpenAi.finishes d = true) ∧
        ∀ i before, OpenAi.Complete frames i before →
          OpenAi.assembled i ((OpenAi.counted (OpenAi.chunksOf frames)).flatMap OpenAi.fragments) =
            OpenAi.assembled i ((OpenAi.chunksOf before).flatMap OpenAi.fragments)
  | .anthropic _, frames => frames.countP Anthropic.endsMessage = 1
  | .gemini _, _ => True

theorem PendingTool.done_injective {first second : PendingTool} (same : first.done = second.done) :
    first = second := by
  obtain ⟨id, name, args⟩ := first
  obtain ⟨id', name', args'⟩ := second
  cases same
  rfl

theorem endedOnce_openAi (st : OpenAi.State) (frames : List StreamFrame) :
    EndedOnce (.openAi st) frames ↔ EndsOnce (.openAi st) frames := by
  have emitted : heard (Adapter.openAi st).resetStream frames =
      (Machine.feed OpenAi.parseFrame .reset frames).2 := heard_openAi frames _
  have endings : endingsIn (heard (Adapter.openAi st).resetStream frames) =
      (OpenAi.verdict .reset (OpenAi.chunksOf frames)).2 := by
    rw [emitted]
    have decides : OpenAi.decided (Machine.feed OpenAi.parseFrame .reset frames).2 =
        OpenAi.verdict .reset (OpenAi.chunksOf frames) := OpenAi.decided_feed frames rfl rfl
    exact congrArg Prod.snd decides
  have once : (endingsIn (heard (Adapter.openAi st).resetStream frames)).length = 1 ↔
      (OpenAi.chunksOf frames).any OpenAi.finishes = true := by
    rw [endings, ← OpenAi.untilFinish_isSome]
    unfold OpenAi.verdict
    cases OpenAi.untilFinish (OpenAi.chunksOf frames) <;> simp
  have keyed : (OpenAi.emissions .reset frames).map Prod.snd =
      callsIn (heard (Adapter.openAi st).resetStream frames) := by
    rw [emitted]
    exact OpenAi.emissions_snd frames .reset
  constructor
  · intro ended
    have known := once.mp ended.done
    refine ⟨List.any_eq_true.mp known, fun i before complete => ?_⟩
    obtain ⟨pt, whole, emissions⟩ := ended.calls.2 i before complete
    rw [OpenAi.emissions_filter known] at emissions
    rw [whole]
    cases counts : OpenAi.assembled i
        ((OpenAi.counted (OpenAi.chunksOf frames)).flatMap OpenAi.fragments) with
    | none =>
        rw [counts] at emissions
        cases emissions
    | some pt' =>
        rw [counts] at emissions
        have same : (i, pt'.done) = (i, pt.done) := List.singleton_inj.mp emissions
        rw [PendingTool.done_injective (congrArg Prod.snd same)]
  · rintro ⟨known, counts⟩
    have known := List.any_eq_true.mpr known
    refine ⟨once.mpr known, keyed, fun i before complete => ?_⟩
    have same := counts i before complete
    obtain ⟨frame, after, -, -, present, -⟩ := complete
    obtain ⟨pt, whole⟩ := Option.isSome_iff_exists.mp (OpenAi.assembled_isSome present)
    refine ⟨pt, whole, ?_⟩
    rw [OpenAi.emissions_filter known, same, whole]
    rfl

theorem endedOnce_anthropic (st : Anthropic.State) (frames : List StreamFrame) :
    EndedOnce (.anthropic st) frames ↔ EndsOnce (.anthropic st) frames := by
  have emitted : heard (Adapter.anthropic st).resetStream frames =
      (Machine.feed Anthropic.parseFrame .reset frames).2 := heard_anthropic frames _
  constructor
  · intro ended
    have once := ended.done
    rw [emitted, Anthropic.endingsIn_feed] at once
    exact once
  · intro once
    refine ⟨?_, ?_⟩
    · rw [emitted, Anthropic.endingsIn_feed]
      exact once
    · show callsIn (heard (Adapter.anthropic st).resetStream frames) = _
      rw [emitted]
      exact Anthropic.callsIn_feed frames Anthropic.follows_reset

theorem Gemini.numbered_calls (calls : List (Bytes × Bytes)) : ∀ seq : UInt32,
    (numbered seq calls).map (fun call => (call.name, call.inputJson)) = calls := by
  induction calls with
  | nil => exact fun _ => rfl
  | cons call rest inductionHypothesis =>
      intro seq
      exact congrArg (call :: ·) (inductionHypothesis (seq + 1))

theorem endedOnce_gemini (st : Gemini.State) {frames : List StreamFrame}
    (ends : ∃ frame ∈ frames, Gemini.endsMessage frame = true) :
    EndedOnce (.gemini st) frames := by
  have emitted : heard (Adapter.gemini st).resetStream frames =
      (Machine.feed Gemini.parseFrame .reset frames).2 := heard_gemini frames _
  refine ⟨?_, ?_⟩
  · rw [emitted, Gemini.endingsIn_feed, List.any_eq_true.mpr ends]
    rfl
  · show (callsIn (heard (Adapter.gemini st).resetStream frames)).map _ = _
    rw [emitted, Gemini.callsIn_feed, Gemini.numbered_calls]

/-- A call, and then a finish reason. -/
def callThen (reason : String) : List StreamFrame :=
  [⟨[], toJson (jsonObject [("choices", .array [jsonObject [("delta", jsonObject [("tool_calls",
      .array [jsonObject [("index", .number 0), ("id", jsonStr "c1"),
        ("function", jsonObject [("name", jsonStr "f"), ("arguments", jsonStr "\x7b\x7d")])]])])]])])⟩,
    ⟨[], toJson (jsonObject [("choices", .array [jsonObject [("finish_reason",
      jsonStr reason)]])])⟩]

def plainOpenAi : Adapter := .openAi (OpenAi.make [] [] 0 [])

end Opencodepp.Provider
