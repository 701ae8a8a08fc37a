import Opencodepp.Library.Transition
import Opencodepp.Provider.Interface
import Opencodepp.Provider.OpenAi

/-!
# What a stream of chunks comes to

The adapter for chat completions works frame by frame; here its whole output is computed from
the chunks of the stream.  Up to the first chunk with a known finish reason the fragments of
the tool calls and the usage objects are gathered; that chunk releases them, and after it
nothing is released any more (`callsIn_feed`, `endingsIn_feed`).
-/

set_option autoImplicit false

namespace Opencodepp.Provider

open Opencodepp.Core
open Opencodepp.Library
open Opencodepp.Msg
open Opencodepp.Util

namespace OpenAi

/-! ## Chunks -/

/-- The chunk of a frame: its value, unless it does not parse or is an error. -/
def chunkOf (frame : StreamFrame) : Option JVal :=
  match parseJson frame.data with
  | .error _ => none
  | .ok d => if (getObj d "error").isNone then some d else none

/-- The chunks of a stream. -/
def chunksOf (frames : List StreamFrame) : List JVal := frames.filterMap chunkOf

def choices (d : JVal) : List JVal := (getArr d "choices").getD []

/-- The finish reasons of a chunk, one for each choice; empty where there is none. -/
def reasons (d : JVal) : List Bytes := (choices d).map (getStr · "finish_reason")

/-- The adapter knows a finish reason of the chunk. -/
def finishes (d : JVal) : Bool := (reasons d).any fun r => mapFinishReason r ≠ .unknown

/-- The tool call fragments of a choice, and of a chunk. -/
def choiceFragments (c : JVal) : List JVal :=
  ((getObj c "delta").bind (getArr · "tool_calls")).getD []

def fragments (d : JVal) : List JVal := (choices d).flatMap choiceFragments

/-- The chunks up to the first that finishes the message. -/
def untilFinish : List JVal → Option (List JVal)
  | [] => none
  | d :: rest => if finishes d then some [d] else (untilFinish rest).map (d :: ·)

theorem untilFinish_isSome (ds : List JVal) : (untilFinish ds).isSome = ds.any finishes := by
  induction ds with
  | nil => rfl
  | cons d rest inductionHypothesis =>
      unfold untilFinish
      cases known : finishes d with
      | true => simp [known]
      | false => simp [known, inductionHypothesis]

/-- The chunks that count: those up to the first that finishes the message, if there is one. -/
def counted (ds : List JVal) : List JVal := (untilFinish ds).getD []

/-- Fold fragments into the calls in progress. -/
def gather (pending : Pending) (tcs : List JVal) : Pending :=
  tcs.foldl (fun pending tc => OrderedMap.upsert (getNum tc "index") (mergeFragment tc) pending)
    pending

/-- The finish reason that stands after more of them: the first known one. -/
def settle (finish : FinishReason) (rs : List Bytes) : FinishReason :=
  rs.foldl (fun finish r => if finish = .unknown then mapFinishReason r else finish) finish

/-- The usage after the usage objects of chunks. -/
def totalUsage (usage : Usage) (ds : List JVal) : Usage :=
  (ds.filterMap (getObj · "usage")).foldl accumulateUsage usage

theorem settle_of_known {finish : FinishReason} (known : finish ≠ .unknown) (rs : List Bytes) :
    settle finish rs = finish := by
  induction rs with
  | nil => rfl
  | cons r rest inductionHypothesis =>
      show settle (if finish = .unknown then mapFinishReason r else finish) rest = finish
      rw [if_neg known]
      exact inductionHypothesis

theorem settle_ne_unknown (rs : List Bytes) :
    settle .unknown rs ≠ .unknown ↔ rs.any (fun r => mapFinishReason r ≠ .unknown) = true := by
  induction rs with
  | nil => simp [settle]
  | cons r rest inductionHypothesis =>
      have step : settle .unknown (r :: rest) = settle (mapFinishReason r) rest := rfl
      rw [step, List.any_cons]
      by_cases known : mapFinishReason r = .unknown
      · rw [known, inductionHypothesis]
        simp
      · rw [settle_of_known known]
        simp [known]

/-! ## One chunk -/

/-- What the choices of a chunk do: fragments and reasons are taken over, and all that is
emitted is part of the answer. -/
structure Taken (tcs : List JVal) (rs : List Bytes) (before after : Stream × List StreamEvent) :
    Prop where
  pending : after.1.pending = gather before.1.pending tcs
  finish : after.1.finish = settle before.1.finish rs
  doneEmitted : after.1.doneEmitted = before.1.doneEmitted
  usage : after.1.usage = before.1.usage
  events : ∃ deltas, after.2 = before.2 ++ deltas ∧ ∀ e ∈ deltas, e.isDelta = true

theorem Taken.refl (acc : Stream × List StreamEvent) : Taken [] [] acc acc :=
  ⟨rfl, rfl, rfl, rfl, [], (List.append_nil _).symm, fun _ none_ => absurd none_ List.not_mem_nil⟩

theorem Taken.trans {tcs tcs' : List JVal} {rs rs' : List Bytes}
    {first second third : Stream × List StreamEvent} (one : Taken tcs rs first second)
    (two : Taken tcs' rs' second third) : Taken (tcs ++ tcs') (rs ++ rs') first third where
  pending := by
    rw [two.pending, one.pending]
    exact List.foldl_append.symm
  finish := by
    rw [two.finish, one.finish]
    exact List.foldl_append.symm
  doneEmitted := two.doneEmitted.trans one.doneEmitted
  usage := two.usage.trans one.usage
  events := by
    obtain ⟨early, split, allEarly⟩ := one.events
    obtain ⟨late, split', allLate⟩ := two.events
    refine ⟨early ++ late, by rw [split', split, List.append_assoc], fun e member => ?_⟩
    rcases List.mem_append.mp member with inEarly | inLate
    · exact allEarly e inEarly
    · exact allLate e inLate

theorem taken_toolFragment (acc : Stream × List StreamEvent) (tc : JVal) :
    Taken [tc] [] acc (toolFragment acc tc) where
  pending := rfl
  finish := rfl
  doneEmitted := rfl
  usage := rfl
  events := by
    refine ⟨_, rfl, fun e member => ?_⟩
    unfold fragmentDelta at member
    split at member
    · exact absurd member List.not_mem_nil
    · split at member
      · exact absurd member List.not_mem_nil
      · rw [List.mem_singleton.mp member]
        rfl

theorem taken_toolFragments : ∀ (tcs : List JVal) (acc : Stream × List StreamEvent),
    Taken tcs [] acc (tcs.foldl toolFragment acc) := by
  intro tcs
  induction tcs with
  | nil => exact Taken.refl
  | cons tc rest inductionHypothesis =>
      intro acc
      exact (taken_toolFragment acc tc).trans (inductionHypothesis (toolFragment acc tc))

theorem taken_choiceDelta (acc : Stream × List StreamEvent) (delta : JVal) :
    Taken ((getArr delta "tool_calls").getD []) [] acc (choiceDelta acc delta) := by
  have said : Taken [] [] acc
      (if getStr delta "content" = [] then acc
        else (acc.1, acc.2 ++ [.textDelta (getStr delta "content")])) := by
    split
    · exact Taken.refl acc
    · refine ⟨rfl, rfl, rfl, rfl, _, rfl, fun e member => ?_⟩
      rw [List.mem_singleton.mp member]
      rfl
  exact said.trans (taken_toolFragments _ _)

/-- The finish reason of a choice. -/
theorem taken_reason (said : Stream × List StreamEvent) (fr : Bytes) :
    Taken [] [fr] said
      (if fr ≠ [] && said.1.finish = .unknown then
        ({ said.1 with finish := mapFinishReason fr }, said.2)
      else said) := by
  refine ⟨?_, ?_, ?_, ?_, [], ?_, fun _ none_ => absurd none_ List.not_mem_nil⟩
  · split <;> rfl
  · -- an absent reason is mapped to the unknown one, so it changes nothing
    have absent : mapFinishReason [] = .unknown := by decide
    show _ = if said.1.finish = .unknown then mapFinishReason fr else said.1.finish
    by_cases unknown : said.1.finish = .unknown
    · by_cases empty : fr = []
      · simp [unknown, empty, absent]
      · simp [unknown, empty]
    · simp [unknown]
  · split <;> rfl
  · split <;> rfl
  · split <;> exact (List.append_nil _).symm

theorem taken_choice (acc : Stream × List StreamEvent) (c : JVal) :
    Taken (choiceFragments c) [getStr c "finish_reason"] acc (choice acc c) := by
  unfold choice choiceFragments
  cases getObj c "delta" with
  | none => exact taken_reason acc _
  | some delta =>
      have both := (taken_choiceDelta acc delta).trans (taken_reason _ (getStr c "finish_reason"))
      rw [List.append_nil] at both
      exact both

theorem taken_choices : ∀ (cs : List JVal) (acc : Stream × List StreamEvent),
    Taken (cs.flatMap choiceFragments) (cs.map (getStr · "finish_reason")) acc
      (cs.foldl choice acc) := by
  intro cs
  induction cs with
  | nil => exact Taken.refl
  | cons c rest inductionHypothesis =>
      intro acc
      exact (taken_choice acc c).trans (inductionHypothesis (choice acc c))

/-- The stream after a chunk. -/
def Stream.after (st : Stream) (d : JVal) : Stream where
  pending := gather st.pending (fragments d)
  finish := settle st.finish (reasons d)
  doneEmitted := st.doneEmitted || settle st.finish (reasons d) ≠ .unknown
  usage := totalUsage st.usage [d]

theorem release_eq (next : Stream) (emitted : Bool) (events : List StreamEvent) :
    release ({ next with doneEmitted := emitted }, events) =
      ({ next with doneEmitted := emitted || next.finish ≠ .unknown }, events ++
        if next.finish ≠ .unknown && !emitted then
          (next.pending.map fun entry => entry.2.done).map .toolCallDone ++
            [.messageDone next.finish next.usage]
        else []) := by
  unfold release
  by_cases known : next.finish = .unknown
  · simp [known]
  · cases emitted <;> simp [known, Function.comp_def]

/-- **One chunk**: parts of the answer, and after them the calls and the end when the finish
reason has become known. -/
theorem chunk_eq (st : Stream) {d : JVal} (plain : getObj d "error" = none) :
    ∃ deltas, (∀ e ∈ deltas, e.isDelta = true) ∧
      chunk st d = (st.after d, deltas ++
        if (st.after d).finish ≠ .unknown && !st.doneEmitted then
          ((st.after d).pending.map fun entry => entry.2.done).map .toolCallDone ++
            [.messageDone (st.after d).finish (st.after d).usage]
        else []) := by
  have taken := taken_choices (choices d) (st, [])
  obtain ⟨deltas, split_, all⟩ := taken.events
  refine ⟨deltas, all, ?_⟩
  unfold chunk
  rw [plain]
  dsimp only
  rw [show (getArr d "choices").getD [] = choices d from rfl]
  generalize (choices d).foldl choice (st, []) = said at taken split_
  obtain ⟨⟨pending, finish, doneEmitted, usage⟩, events⟩ := said
  obtain ⟨rfl, rfl, rfl, rfl, -⟩ := taken
  rw [List.nil_append] at split_
  dsimp only at split_
  subst split_
  refine Eq.trans (congrArg release ?_) (release_eq (st.after d) st.doneEmitted events)
  unfold Stream.after totalUsage
  cases reported : getObj d "usage" <;> simp [reported, fragments, reasons]

/-! ## A whole stream -/

/-- A frame that is no chunk is an error, and leaves the stream alone. -/
theorem parseFrame_of_no_chunk (st : Stream) {frame : StreamFrame} (other : chunkOf frame = none) :
    ∃ ec message, parseFrame st frame = (st, [.providerError ec message]) ∧ ec.ok = false := by
  unfold chunkOf at other
  unfold parseFrame
  cases parsed : parseJson frame.data with
  | error e => exact ⟨_, _, rfl, e.failed⟩
  | ok d =>
      rw [parsed] at other
      cases reported : getObj d "error" with
      | none => simp [reported] at other
      | some err =>
          refine ⟨⟨errorCodeOf (getStr err "type"), 0⟩, getStr err "message", ?_, ?_⟩
          · simp only [chunk, reported]
          · unfold errorCodeOf
            split
            · rfl
            · split <;> rfl

theorem parseFrame_of_chunk (st : Stream) {frame : StreamFrame} {d : JVal}
    (isChunk : chunkOf frame = some d) :
    ∃ deltas, (∀ e ∈ deltas, e.isDelta = true) ∧
      parseFrame st frame = (st.after d, deltas ++
        if (st.after d).finish ≠ .unknown && !st.doneEmitted then
          ((st.after d).pending.map fun entry => entry.2.done).map .toolCallDone ++
            [.messageDone (st.after d).finish (st.after d).usage]
        else []) := by
  unfold chunkOf at isChunk
  unfold parseFrame
  cases parsed : parseJson frame.data with
  | error e =>
      rw [parsed] at isChunk
      cases isChunk
  | ok value =>
      rw [parsed] at isChunk
      cases reported : getObj value "error" with
      | some err => simp [reported] at isChunk
      | none =>
          have same : value = d := by simpa [reported] using isChunk
          rw [← same]
          exact chunk_eq st reported

/-- What a stream decides: the calls it finishes, and the ends of its message. -/
def decided (events : List StreamEvent) : List ToolCallDone × List (FinishReason × Usage) :=
  (callsIn events, endingsIn events)

/-- What chunks decide: nothing before the message is finished, then everything at once. -/
def verdict (st : Stream) (ds : List JVal) : List ToolCallDone × List (FinishReason × Usage) :=
  match untilFinish ds with
  | none => ([], [])
  | some head =>
      ((gather st.pending (head.flatMap fragments)).map fun entry => entry.2.done,
        [(settle st.finish (head.flatMap reasons), totalUsage st.usage head)])

/-- After the end of the message nothing is decided any more. -/
theorem decided_of_emitted (frames : List StreamFrame) : ∀ {st : Stream},
    st.doneEmitted = true → decided (Machine.feed parseFrame st frames).2 = ([], []) := by
  induction frames with
  | nil =>
      intro st _
      rfl
  | cons frame rest inductionHypothesis =>
      intro st emitted
      rw [Machine.feed_cons]
      cases isChunk : chunkOf frame with
      | none =>
          obtain ⟨ec, message, parsed, -⟩ := parseFrame_of_no_chunk st isChunk
          rw [parsed]
          exact inductionHypothesis emitted
      | some d =>
          obtain ⟨deltas, all, parsed⟩ := parseFrame_of_chunk st isChunk
          have still : (st.after d).doneEmitted = true := by
            unfold Stream.after
            simp [emitted]
          have later := inductionHypothesis still
          unfold decided at later ⊢
          rw [parsed]
          simp only [emitted, Bool.not_true, Bool.and_false, Bool.false_eq_true, if_false,
            List.append_nil, callsIn_append, endingsIn_append, callsIn_of_deltas all,
            endingsIn_of_deltas all, List.nil_append]
          exact later

theorem settle_append (finish : FinishReason) (first second : List Bytes) :
    settle finish (first ++ second) = settle (settle finish first) second := List.foldl_append

theorem gather_append (pending : Pending) (first second : List JVal) :
    gather pending (first ++ second) = gather (gather pending first) second := List.foldl_append

theorem totalUsage_cons (usage : Usage) (d : JVal) (ds : List JVal) :
    totalUsage usage (d :: ds) = totalUsage (totalUsage usage [d]) ds := by
  unfold totalUsage
  rw [← List.singleton_append, List.filterMap_append, List.foldl_append]

/-- A chunk that does not finish the message is only taken over. -/
theorem verdict_cons (st : Stream) {d : JVal} (open_ : finishes d = false) (ds : List JVal) :
    verdict st (d :: ds) = verdict (st.after d) ds := by
  have skipped : untilFinish (d :: ds) = (untilFinish ds).map (d :: ·) := by
    simp [untilFinish, open_]
  unfold verdict
  rw [skipped]
  cases untilFinish ds with
  | none => rfl
  | some head =>
      show ((gather st.pending (fragments d ++ head.flatMap fragments)).map _,
        [(settle st.finish (reasons d ++ head.flatMap reasons), _)]) = _
      rw [gather_append, settle_append, totalUsage_cons]
      rfl

/-- A chunk that finishes the message decides. -/
theorem verdict_of_finishes (st : Stream) {d : JVal} (known : finishes d = true) (ds : List JVal) :
    verdict st (d :: ds) =
      ((st.after d).pending.map fun entry => entry.2.done,
        [((st.after d).finish, (st.after d).usage)]) := by
  have found : untilFinish (d :: ds) = some [d] := by simp [untilFinish, known]
  unfold verdict
  rw [found]
  simp [Stream.after]

/-- **A stream decides what its chunks do.**  Frames that are no chunks make no difference. -/
theorem decided_feed (frames : List StreamFrame) : ∀ {st : Stream}, st.finish = .unknown →
    st.doneEmitted = false →
      decided (Machine.feed parseFrame st frames).2 = verdict st (chunksOf frames) := by
  induction frames with
  | nil =>
      intro st _ _
      rfl
  | cons frame rest inductionHypothesis =>
      intro st unknown open_
      rw [Machine.feed_cons]
      cases isChunk : chunkOf frame with
      | none =>
          obtain ⟨ec, message, parsed, -⟩ := parseFrame_of_no_chunk st isChunk
          have skipped : chunksOf (frame :: rest) = chunksOf rest :=
            List.filterMap_cons_none isChunk
          rw [parsed, skipped]
          exact inductionHypothesis unknown open_
      | some d =>
          obtain ⟨deltas, all, parsed⟩ := parseFrame_of_chunk st isChunk
          have taken : chunksOf (frame :: rest) = d :: chunksOf rest :=
            List.filterMap_cons_some isChunk
          have finish : (st.after d).finish = settle .unknown (reasons d) := by
            show settle st.finish (reasons d) = _
            rw [unknown]
          rw [taken]
          cases known : finishes d with
          | true =>
              have reached : (st.after d).finish ≠ .unknown := by
                rw [finish]
                exact (settle_ne_unknown _).mpr known
              have emitted : (st.after d).doneEmitted = true := by
                have later : settle st.finish (reasons d) ≠ .unknown := reached
                unfold Stream.after
                simp [later]
              have nothing := decided_of_emitted rest emitted
              unfold decided at nothing ⊢
              obtain ⟨noCalls, noEndings⟩ := Prod.mk.inj nothing
              rw [parsed]
              simp only [callsIn_append, endingsIn_append, callsIn_of_deltas all,
                endingsIn_of_deltas all, noCalls, noEndings, open_, Bool.not_false, Bool.and_true,
                decide_eq_true reached, if_true, List.nil_append, List.append_nil, callsIn_calls,
                endingsIn_calls, callsIn_messageDone, endingsIn_messageDone]
              rw [verdict_of_finishes st known]
          | false =>
              have still : (st.after d).finish = .unknown := by
                rw [finish]
                by_contra reached
                have := (settle_ne_unknown _).mp reached
                rw [show (reasons d).any _ = finishes d from rfl, known] at this
                cases this
              have quiet : (st.after d).doneEmitted = false := by
                have same : settle st.finish (reasons d) = .unknown := still
                unfold Stream.after
                simp [open_, same]
              have later := inductionHypothesis still quiet
              unfold decided at later ⊢
              rw [parsed]
              simp only [still, ne_eq, not_true_eq_false, decide_false, Bool.false_and,
                Bool.false_eq_true, if_false, List.append_nil, callsIn_append, endingsIn_append,
                callsIn_of_deltas all, endingsIn_of_deltas all, List.nil_append]
              rw [later, verdict_cons st known]

/-- A stream is free of errors exactly when all its frames are chunks. -/
theorem errorsIn_feed (frames : List StreamFrame) : ∀ st : Stream,
    errorsIn (Machine.feed parseFrame st frames).2 = [] ↔
      ∀ frame ∈ frames, (chunkOf frame).isSome = true := by
  induction frames with
  | nil =>
      intro st
      simp [errorsIn]
  | cons frame rest inductionHypothesis =>
      intro st
      rw [Machine.feed_cons, List.forall_mem_cons]
      cases isChunk : chunkOf frame with
      | none =>
          obtain ⟨ec, message, parsed, -⟩ := parseFrame_of_no_chunk st isChunk
          rw [parsed]
          simp [errorsIn]
      | some d =>
          obtain ⟨deltas, all, parsed⟩ := parseFrame_of_chunk st isChunk
          have quiet : errorsIn (parseFrame st frame).2 = [] := by
            rw [parsed, errorsIn_append, errorsIn_of_deltas all]
            split <;> simp [errorsIn]
          rw [errorsIn_append, quiet, List.nil_append, inductionHypothesis]
          simp

end OpenAi

end Opencodepp.Provider
