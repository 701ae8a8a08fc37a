import Opencodepp.Agent.Loop
import Opencodepp.Provider.Factory

/-!
# Streams and what they leave behind

Frames go through the adapter into the accumulators of a round.  `replay` is that passage
on its own, for the engine's three adapters.

The result of this module is that nothing an adapter or the accumulators keep is hidden: when
frames have left any trace, some short stream that follows them is answered differently than
on its own (`clean_of_unobservable`).  The streams that tell are a finish reason for the
compatible family; the end of the message and the end of an open block for the second; and a
finish reason and a call for the third.

Every accumulator of a round is read off the whole sequence of events: the calls are all the
finished calls, the usage and the finish reason are those of the last end of the message, and there
is no error exactly when none was reported (`quiet_replay`).
-/

set_option autoImplicit false

namespace Opencodepp.Agent

open Opencodepp.Core
open Opencodepp.Library
open Opencodepp.Msg
open Opencodepp.Provider
open Opencodepp.Util

/-- One frame through the adapter into the accumulators. -/
def deliver (state : Adapter × Accum) (frame : StreamFrame) : Adapter × Accum :=
  let parsed := state.1.parseFrame frame
  (parsed.2.1, parsed.2.2.foldl Accum.sink state.2)

/-- A stream of frames. -/
def replay (state : Adapter × Accum) (frames : List StreamFrame) : Adapter × Accum :=
  frames.foldl deliver state

theorem replay_append (state : Adapter × Accum) (first second : List StreamFrame) :
    replay state (first ++ second) = replay (replay state first) second :=
  List.foldl_append

/-- An adapter and accumulators as a request starts with. -/
def clean (p : Adapter) : Adapter × Accum := (p.resetStream, .blank)

/-- What a round returns of its accumulators. -/
def Accum.reply (acc : Accum) : Bytes × List ToolCallDone × Usage × FinishReason :=
  (acc.text, acc.calls, acc.usage, acc.finish)

/-! ## What frames never change -/

theorem resetStream_deliver (state : Adapter × Accum) (frame : StreamFrame) :
    (deliver state frame).1.resetStream = state.1.resetStream := by
  obtain ⟨p, acc⟩ := state
  cases p <;> rfl

/-- Only the stream of an adapter changes. -/
theorem resetStream_replay (frames : List StreamFrame) : ∀ state : Adapter × Accum,
    (replay state frames).1.resetStream = state.1.resetStream := by
  induction frames with
  | nil =>
      intro state
      rfl
  | cons frame rest inductionHypothesis =>
      intro state
      exact (inductionHypothesis (deliver state frame)).trans (resetStream_deliver state frame)

/-- Requests do not look at the stream. -/
theorem buildRequest_congr {p q : Adapter} (same : p.resetStream = q.resetStream)
    (msgs : List Message) (tools : List ToolSpec) (model : ModelSpec) (budget : Budget) :
    p.buildRequest msgs tools model budget = q.buildRequest msgs tools model budget := by
  have stripped : ∀ r : Adapter, r.resetStream.buildRequest msgs tools model budget =
      r.buildRequest msgs tools model budget := by
    intro r
    cases r <;> rfl
  rw [← stripped p, same, stripped q]

/-- The error a provider has reported, once set, stays an error. -/
theorem providerErr_sink (events : List StreamEvent) : ∀ acc : Accum,
    (events.foldl Accum.sink acc).providerErr.ok = true →
      (events.foldl Accum.sink acc).providerErr = acc.providerErr := by
  induction events with
  | nil =>
      intro acc _
      rfl
  | cons event rest inductionHypothesis =>
      intro acc fine
      have later := inductionHypothesis (acc.sink event) fine
      cases event with
      | providerError ec message =>
          rw [List.foldl_cons, later] at fine
          have failed : (if ec.ok then ⟨.eProviderErr, 0⟩ else ec : ErrorCode).ok = false := by
            split
            · rfl
            · next failed => simpa using failed
          exact absurd (fine.symm.trans failed) (by decide)
      | _ => exact later

theorem providerErr_replay (frames : List StreamFrame) : ∀ state : Adapter × Accum,
    (replay state frames).2.providerErr.ok = true →
      (replay state frames).2.providerErr = state.2.providerErr := by
  induction frames with
  | nil =>
      intro state _
      rfl
  | cons frame rest inductionHypothesis =>
      intro state fine
      have later := inductionHypothesis (deliver state frame) fine
      have first : (deliver state frame).2.providerErr.ok = true := later ▸ fine
      exact later.trans (providerErr_sink (state.1.parseFrame frame).2.2 state.2 first)

/-! ## Frames that tell -/

/-- The end of a message of the compatible family, with its reason. -/
def stopFrame : StreamFrame :=
  ⟨[], str "\x7b\"choices\":[\x7b\"finish_reason\":\"stop\"\x7d]\x7d"⟩

def lengthFrame : StreamFrame :=
  ⟨[], str "\x7b\"choices\":[\x7b\"finish_reason\":\"length\"\x7d]\x7d"⟩

set_option maxRecDepth 20000 in
theorem parse_stopFrame : parseJson stopFrame.data =
    .ok (.object [(str "choices",
      .array [.object [(str "finish_reason", .string (str "stop"))]])]) := rfl

set_option maxRecDepth 20000 in
theorem parse_lengthFrame : parseJson lengthFrame.data =
    .ok (.object [(str "choices",
      .array [.object [(str "finish_reason", .string (str "length"))]])]) := rfl

/-- The end of a message of the second family, and the end of a block. -/
def messageStopFrame : StreamFrame := ⟨str "message_stop", str "\x7b\x7d"⟩

def blockStopFrame (data : Bytes) : StreamFrame := ⟨str "content_block_stop", data⟩

/-- The end of a message of the third family, and a call. -/
def geminiStopFrame : StreamFrame :=
  ⟨[], str "\x7b\"candidates\":[\x7b\"finishReason\":\"STOP\"\x7d]\x7d"⟩

def geminiCallFrame : StreamFrame :=
  ⟨[], str ("\x7b\"candidates\":[\x7b\"content\":\x7b\"parts\":[" ++
    "\x7b\"functionCall\":\x7b\x7d\x7d]\x7d\x7d]\x7d")⟩

set_option maxRecDepth 20000 in
theorem parse_geminiStopFrame : parseJson geminiStopFrame.data =
    .ok (.object [(str "candidates",
      .array [.object [(str "finishReason", .string (str "STOP"))]])]) := rfl

set_option maxRecDepth 20000 in
theorem parse_geminiCallFrame : parseJson geminiCallFrame.data =
    .ok (.object [(str "candidates", .array [.object [(str "content",
      .object [(str "parts", .array [.object [(str "functionCall", .object [])]])])]])]) := rfl

/-! ## The compatible family -/

/-- What a finish reason yields: the open calls and the end, unless the end was there. -/
theorem openAi_finish (st : OpenAi.Stream) {frame : StreamFrame} {reason : Bytes}
    (parsed : parseJson frame.data = .ok (.object [(str "choices",
      .array [.object [(str "finish_reason", .string reason)]])]))
    (nonempty : reason ≠ []) (known : OpenAi.mapFinishReason reason ≠ .unknown) :
    (OpenAi.parseFrame st frame).2 =
      if st.doneEmitted then []
      else st.pending.map (fun entry => .toolCallDone entry.2.done) ++
        [.messageDone (if st.finish = .unknown then OpenAi.mapFinishReason reason else st.finish)
          st.usage] := by
  have chosen : OpenAi.choice (st, []) (.object [(str "finish_reason", .string reason)]) =
      ({ st with finish := if st.finish = .unknown then OpenAi.mapFinishReason reason
          else st.finish }, []) := by
    have found : getStr (.object [(str "finish_reason", .string reason)]) "finish_reason" = reason :=
      rfl
    have noDelta : getObj (.object [(str "finish_reason", .string reason)]) "delta" = none := rfl
    unfold OpenAi.choice
    rw [noDelta, found]
    by_cases unknown : st.finish = .unknown
    · simp [nonempty, unknown]
    · simp [unknown]
  have chunked : OpenAi.parseFrame st frame =
      OpenAi.release (OpenAi.choice (st, []) (.object [(str "finish_reason", .string reason)])) := by
    unfold OpenAi.parseFrame
    rw [parsed]
    rfl
  have ended : (if st.finish = .unknown then OpenAi.mapFinishReason reason
      else st.finish) ≠ .unknown := by
    split
    · exact known
    · next other => exact other
  rw [chunked, chosen]
  unfold OpenAi.release
  cases emitted : st.doneEmitted <;> simp [ended]

theorem sink_calls (pending : Pending) : ∀ acc : Accum,
    (pending.map fun entry => StreamEvent.toolCallDone entry.2.done).foldl Accum.sink acc =
      { acc with calls := acc.calls ++ pending.map fun entry => entry.2.done } := by
  induction pending with
  | nil =>
      intro acc
      simp
  | cons entry rest inductionHypothesis =>
      intro acc
      rw [List.map_cons, List.foldl_cons, inductionHypothesis]
      simp [Accum.sink]

/-- The reply of a finish reason. -/
theorem openAi_finish_reply (st : OpenAi.Stream) {frame : StreamFrame} {reason : Bytes}
    (parsed : parseJson frame.data = .ok (.object [(str "choices",
      .array [.object [(str "finish_reason", .string reason)]])]))
    (nonempty : reason ≠ []) (known : OpenAi.mapFinishReason reason ≠ .unknown) :
    ((OpenAi.parseFrame st frame).2.foldl Accum.sink .blank).reply =
      if st.doneEmitted then Accum.blank.reply
      else ([], st.pending.map (fun entry => entry.2.done), st.usage,
        if st.finish = .unknown then OpenAi.mapFinishReason reason else st.finish) := by
  rw [openAi_finish st parsed nonempty known]
  split
  · rfl
  · rw [List.foldl_append, sink_calls]
    rfl

/-- A finish reason is no error. -/
theorem openAi_finish_quiet (st : OpenAi.Stream) {frame : StreamFrame} {reason : Bytes}
    (parsed : parseJson frame.data = .ok (.object [(str "choices",
      .array [.object [(str "finish_reason", .string reason)]])]))
    (nonempty : reason ≠ []) (known : OpenAi.mapFinishReason reason ≠ .unknown) :
    ((OpenAi.parseFrame st frame).2.foldl Accum.sink .blank).providerErr.ok = true := by
  rw [openAi_finish st parsed nonempty known]
  split
  · rfl
  · rw [List.foldl_append, sink_calls]
    rfl

/-- A stream of the compatible family that answers two finish reasons as a new one is new. -/
theorem openAi_reset_of_probes {st : OpenAi.Stream}
    (stops : ((OpenAi.parseFrame st stopFrame).2.foldl Accum.sink .blank).reply =
      ((OpenAi.parseFrame .reset stopFrame).2.foldl Accum.sink .blank).reply)
    (runsOut : ((OpenAi.parseFrame st lengthFrame).2.foldl Accum.sink .blank).reply =
      ((OpenAi.parseFrame .reset lengthFrame).2.foldl Accum.sink .blank).reply) :
    st = .reset := by
  rw [openAi_finish_reply st parse_stopFrame (by decide) (by decide),
    openAi_finish_reply .reset parse_stopFrame (by decide) (by decide)] at stops
  rw [openAi_finish_reply st parse_lengthFrame (by decide) (by decide),
    openAi_finish_reply .reset parse_lengthFrame (by decide) (by decide)] at runsOut
  obtain ⟨pending, finish, doneEmitted, usage⟩ := st
  cases doneEmitted with
  | true => cases stops
  | false =>
      simp only [OpenAi.Stream.reset, Bool.false_eq_true, if_false, if_true, Prod.mk.injEq,
        List.map_nil, List.map_eq_nil_iff, true_and] at stops runsOut
      obtain ⟨noCalls, noUsage, stopped⟩ := stops
      have unknown : finish = .unknown := by
        by_cases same : finish = .unknown
        · exact same
        · have both := runsOut.2.2
          rw [if_neg same] at stopped both
          rw [stopped] at both
          exact absurd both (by decide)
      rw [noCalls, noUsage, unknown]
      rfl

/-! ## The second family -/

/-- The keys of the open calls all stand in some frame. -/
def KeysSeen (st : Anthropic.Stream) : Prop :=
  ∀ key ∈ st.pending.map Prod.fst, ∃ data d, parseJson data = .ok d ∧ getNum d "index" = key

section Keys

variable {st : Anthropic.Stream}

theorem KeysSeen.of_pending {st' : Anthropic.Stream} (seen : KeysSeen st)
    (same : st'.pending = st.pending) : KeysSeen st' := by
  unfold KeysSeen
  rw [same]
  exact seen

theorem KeysSeen.upsert {data : Bytes} {d : JVal} (seen : KeysSeen st)
    (parsed : parseJson data = .ok d) (change : Option PendingTool → PendingTool) :
    KeysSeen { st with pending := OrderedMap.upsert (getNum d "index") change st.pending } := by
  intro key member
  rcases OrderedMap.mem_keys_upsert member with same | old
  · exact ⟨data, d, parsed, same.symm⟩
  · exact seen key old

theorem pending_addUsage (u : Option JVal) : (Anthropic.addUsage st u).pending = st.pending := by
  cases u <;> rfl

theorem pending_messageDelta (d : JVal) : (Anthropic.messageDelta st d).pending = st.pending := by
  unfold Anthropic.messageDelta
  dsimp only
  rw [pending_addUsage]
  split <;> rfl

theorem keysSeen_blockStart {data : Bytes} {d : JVal} (seen : KeysSeen st)
    (parsed : parseJson data = .ok d) : KeysSeen (Anthropic.blockStart st d) := by
  unfold Anthropic.blockStart
  split
  · exact seen
  · split
    · exact seen.upsert parsed _
    · exact seen

theorem keysSeen_blockDelta {data : Bytes} {d : JVal} (seen : KeysSeen st)
    (parsed : parseJson data = .ok d) : KeysSeen (Anthropic.blockDelta st d).1 := by
  unfold Anthropic.blockDelta
  split
  · exact seen
  · dsimp only
    split
    · exact seen
    · split
      · exact seen
      · split
        · exact seen.upsert parsed _
        · exact seen

theorem keysSeen_blockStop (d : JVal) (seen : KeysSeen st) :
    KeysSeen (Anthropic.blockStop st d).1 := by
  unfold Anthropic.blockStop
  dsimp only
  split
  · exact seen
  · intro key member
    exact seen key (OrderedMap.mem_keys_of_mem_keys_erase member)

/-- A frame opens calls only under its own key. -/
theorem keysSeen_parseFrame (seen : KeysSeen st) (frame : StreamFrame) :
    KeysSeen (Anthropic.parseFrame st frame).1 := by
  unfold Anthropic.parseFrame
  split
  · exact seen
  · next d parsed =>
      unfold Anthropic.dispatch
      split
      · exact seen
      split
      · exact seen.of_pending (pending_addUsage _)
      split
      · exact keysSeen_blockStart seen parsed
      split
      · exact keysSeen_blockDelta seen parsed
      split
      · exact keysSeen_blockStop d seen
      split
      · exact seen.of_pending (pending_messageDelta d)
      split
      · exact seen
      split <;> exact seen

end Keys

theorem anthropic_blockStop (st : Anthropic.Stream) {data : Bytes} {d : JVal}
    (parsed : parseJson data = .ok d) :
    Anthropic.parseFrame st (blockStopFrame data) = Anthropic.blockStop st d := by
  unfold Anthropic.parseFrame
  rw [show parseJson (blockStopFrame data).data = .ok d from parsed]
  rfl

/-- The end of a block is no error. -/
theorem anthropic_blockStop_quiet (st : Anthropic.Stream) {data : Bytes} {d : JVal}
    (parsed : parseJson data = .ok d) :
    ((Anthropic.parseFrame st (blockStopFrame data)).2.foldl Accum.sink .blank).providerErr.ok =
      true := by
  rw [anthropic_blockStop st parsed]
  unfold Anthropic.blockStop
  dsimp only
  split <;> rfl

/-- A stream of the second family that answers the end of the message, and the end of every
block, as a new one is new. -/
theorem anthropic_reset_of_probes {st : Anthropic.Stream} (seen : KeysSeen st)
    (stops : ((Anthropic.parseFrame st messageStopFrame).2.foldl Accum.sink .blank).reply =
      ((Anthropic.parseFrame .reset messageStopFrame).2.foldl Accum.sink .blank).reply)
    (blocks : ∀ data d, parseJson data = .ok d →
      ((Anthropic.parseFrame st (blockStopFrame data)).2.foldl Accum.sink .blank).reply =
        ((Anthropic.parseFrame .reset (blockStopFrame data)).2.foldl Accum.sink .blank).reply) :
    st = .reset := by
  obtain ⟨pending, stop, usage⟩ := st
  have ended : (([], [], usage, stop) : Bytes × List ToolCallDone × Usage × FinishReason) =
      ([], [], .zero, .unknown) := stops
  cases pending with
  | nil =>
      cases ended
      rfl
  | cons entry rest =>
      obtain ⟨data, d, parsed, index⟩ := seen entry.1 (List.mem_cons_self ..)
      have answers := blocks data d parsed
      rw [anthropic_blockStop _ parsed, anthropic_blockStop _ parsed] at answers
      have found : List.lookup (getNum d "index") (entry :: rest) = some entry.2 := by
        rw [index, List.lookup_cons, beq_self_eq_true]
      have stopped : (Anthropic.blockStop ⟨entry :: rest, stop, usage⟩ d).2 =
          [.toolCallDone entry.2.done] := by
        simp only [Anthropic.blockStop, found]
      rw [stopped] at answers
      cases answers

/-! ## The third family -/

theorem gemini_stop_reply (st : Gemini.Stream) :
    ((Gemini.parseFrame st geminiStopFrame).2.foldl Accum.sink .blank).reply =
      if st.doneEmitted then Accum.blank.reply else ([], [], st.usage, .endTurn) := by
  have parsed : Gemini.parseFrame st geminiStopFrame = Gemini.chunk st (.object [(str "candidates",
      .array [.object [(str "finishReason", .string (str "STOP"))]])]) := by
    unfold Gemini.parseFrame
    rw [parse_geminiStopFrame]
  rw [parsed]
  obtain ⟨callSeq, doneEmitted, usage⟩ := st
  cases doneEmitted <;> rfl

theorem gemini_call_reply (st : Gemini.Stream) :
    ((Gemini.parseFrame st geminiCallFrame).2.foldl Accum.sink .blank).reply =
      ([], [⟨str "fc" ++ decimal st.callSeq.toNat, [], str "\x7b\x7d"⟩], .zero, .unknown) := by
  have parsed : Gemini.parseFrame st geminiCallFrame = Gemini.chunk st (.object [(str "candidates",
      .array [.object [(str "content",
        .object [(str "parts", .array [.object [(str "functionCall", .object [])]])])]])]) := by
    unfold Gemini.parseFrame
    rw [parse_geminiCallFrame]
  rw [parsed]
  obtain ⟨callSeq, doneEmitted, usage⟩ := st
  rfl

/-- Neither a finish reason nor a call is an error. -/
theorem gemini_stop_quiet (st : Gemini.Stream) :
    ((Gemini.parseFrame st geminiStopFrame).2.foldl Accum.sink .blank).providerErr.ok = true := by
  unfold Gemini.parseFrame
  rw [parse_geminiStopFrame]
  obtain ⟨callSeq, doneEmitted, usage⟩ := st
  cases doneEmitted <;> rfl

theorem gemini_call_quiet (st : Gemini.Stream) :
    ((Gemini.parseFrame st geminiCallFrame).2.foldl Accum.sink .blank).providerErr.ok = true := by
  unfold Gemini.parseFrame
  rw [parse_geminiCallFrame]
  rfl

/-- A stream of the third family that answers a finish reason and a call as a new one is
new. -/
theorem gemini_reset_of_probes {st : Gemini.Stream}
    (stops : ((Gemini.parseFrame st geminiStopFrame).2.foldl Accum.sink .blank).reply =
      ((Gemini.parseFrame .reset geminiStopFrame).2.foldl Accum.sink .blank).reply)
    (calls : ((Gemini.parseFrame st geminiCallFrame).2.foldl Accum.sink .blank).reply =
      ((Gemini.parseFrame .reset geminiCallFrame).2.foldl Accum.sink .blank).reply) :
    st = .reset := by
  rw [gemini_stop_reply, gemini_stop_reply] at stops
  rw [gemini_call_reply, gemini_call_reply] at calls
  obtain ⟨callSeq, doneEmitted, usage⟩ := st
  cases doneEmitted with
  | true => cases stops
  | false =>
      simp only [Gemini.Stream.reset, Bool.false_eq_true, if_false, Prod.mk.injEq, true_and,
        and_true, List.cons.injEq, ToolCallDone.mk.injEq, List.append_cancel_left_eq] at stops calls
      have noCalls : callSeq.toNat = 0 := decimal_injective calls
      have seq : callSeq = 0 := UInt32.toNat_inj.mp noCalls
      rw [seq, stops]
      rfl

/-! ## Every trace can be observed -/

/-- The keys of the open calls have been seen, for an adapter that has such keys. -/
def AdapterKeys : Adapter → Prop
  | .anthropic state => KeysSeen state.stream
  | _ => True

theorem adapterKeys_replay (frames : List StreamFrame) : ∀ state : Adapter × Accum,
    AdapterKeys state.1 → AdapterKeys (replay state frames).1 := by
  induction frames with
  | nil =>
      intro state seen
      exact seen
  | cons frame rest inductionHypothesis =>
      rintro ⟨p, acc⟩ seen
      refine inductionHypothesis (deliver (p, acc) frame) ?_
      cases p with
      | anthropic state => exact keysSeen_parseFrame seen frame
      | openAi state => trivial
      | gemini state => trivial

/-- An adapter that answers every frame as a reset one is reset. -/
theorem reset_of_probes {p q : Adapter} (same : q.resetStream = p.resetStream)
    (keys : AdapterKeys q)
    (probes : ∀ frame, (deliver (clean p) frame).2.providerErr.ok = true →
      (deliver (q, .blank) frame).2.providerErr.ok = true →
      (deliver (q, .blank) frame).2.reply = (deliver (clean p) frame).2.reply) :
    q = p.resetStream := by
  suffices already : q.resetStream = q by rw [← same, already]
  cases p with
  | openAi state =>
      cases q with
      | openAi state' =>
          have stops (st : OpenAi.Stream) :=
            openAi_finish_quiet st parse_stopFrame (by decide) (by decide)
          have runsOut (st : OpenAi.Stream) :=
            openAi_finish_quiet st parse_lengthFrame (by decide) (by decide)
          have stream : state'.stream = .reset :=
            openAi_reset_of_probes (probes stopFrame (stops _) (stops _))
              (probes lengthFrame (runsOut _) (runsOut _))
          show Adapter.openAi { state' with stream := .reset } = .openAi state'
          rw [← stream]
      | anthropic state' => cases same
      | gemini state' => cases same
  | anthropic state =>
      cases q with
      | anthropic state' =>
          have stream : state'.stream = .reset := by
            refine anthropic_reset_of_probes keys (probes messageStopFrame rfl rfl) ?_
            intro data d parsed
            exact probes (blockStopFrame data) (anthropic_blockStop_quiet _ parsed)
              (anthropic_blockStop_quiet _ parsed)
          show Adapter.anthropic { state' with stream := .reset } = .anthropic state'
          rw [← stream]
      | openAi state' => cases same
      | gemini state' => cases same
  | gemini state =>
      cases q with
      | gemini state' =>
          have stream : state'.stream = .reset :=
            gemini_reset_of_probes
              (probes geminiStopFrame (gemini_stop_quiet _) (gemini_stop_quiet _))
              (probes geminiCallFrame (gemini_call_quiet _) (gemini_call_quiet _))
          show Adapter.gemini { state' with stream := .reset } = .gemini state'
          rw [← stream]
      | openAi state' => cases same
      | anthropic state' => cases same

/-- **Every trace can be observed.**  Frames after which every stream is answered as on its
own have left the adapter and the accumulators as they were. -/
theorem clean_of_unobservable (p : Adapter) (frames : List StreamFrame)
    (fine : (replay (clean p) frames).2.providerErr.ok = true)
    (same : ∀ probe, (replay (clean p) probe).2.providerErr.ok = true →
      (replay (clean p) (frames ++ probe)).2.providerErr.ok = true →
      (replay (clean p) (frames ++ probe)).2.reply = (replay (clean p) probe).2.reply) :
    replay (clean p) frames = clean p := by
  have blank : (replay (clean p) frames).2 = .blank := by
    have error : (replay (clean p) frames).2.providerErr = .success :=
      providerErr_replay frames (clean p) fine
    have reply := same [] rfl
    rw [List.append_nil] at reply
    have answer := reply fine
    generalize (replay (clean p) frames).2 = acc at answer error
    obtain ⟨text, calls, usage, finish, providerErr⟩ := acc
    cases answer
    cases error
    rfl
  have adapter : (replay (clean p) frames).1 = p.resetStream := by
    have config : (replay (clean p) frames).1.resetStream = p.resetStream := by
      rw [resetStream_replay]
      cases p <;> rfl
    have keys : AdapterKeys (clean p).1 := by
      cases p with
      | anthropic state => exact fun _ member => absurd member List.not_mem_nil
      | openAi state => trivial
      | gemini state => trivial
    refine reset_of_probes config (adapterKeys_replay frames (clean p) keys)
      fun frame told quiet => ?_
    have answer := same [frame] told
    rw [replay_append] at answer
    rw [← blank] at quiet ⊢
    exact answer quiet
  exact Prod.ext adapter blank

/-! ## The sink -/

section Sink

variable (events : List StreamEvent)

theorem calls_sink : ∀ acc : Accum,
    (events.foldl Accum.sink acc).calls = acc.calls ++ callsIn events := by
  induction events with
  | nil =>
      intro acc
      exact (List.append_nil _).symm
  | cons event rest inductionHypothesis =>
      intro acc
      rw [List.foldl_cons, inductionHypothesis]
      cases event <;> simp [Accum.sink, callsIn]

/-- The usage is what the last end of the message reports. -/
theorem usage_sink : ∀ acc : Accum,
    (events.foldl Accum.sink acc).usage =
      ((endingsIn events).getLast?.map Prod.snd).getD acc.usage := by
  induction events with
  | nil =>
      intro acc
      rfl
  | cons event rest inductionHypothesis =>
      intro acc
      rw [List.foldl_cons, inductionHypothesis]
      cases event with
      | messageDone finish usage =>
          have split : endingsIn (.messageDone finish usage :: rest) =
              (finish, usage) :: endingsIn rest := rfl
          rw [split, List.getLast?_cons]
          cases (endingsIn rest).getLast? <;> rfl
      | _ => rfl

theorem providerErr_ok_sink : ∀ acc : Accum,
    (events.foldl Accum.sink acc).providerErr.ok = true ↔
      acc.providerErr.ok = true ∧ errorsIn events = [] := by
  induction events with
  | nil =>
      intro acc
      simp [errorsIn]
  | cons event rest inductionHypothesis =>
      intro acc
      rw [List.foldl_cons, inductionHypothesis]
      cases event with
      | providerError ec message =>
          have failed : (acc.sink (.providerError ec message)).providerErr.ok = false := by
            show (if ec.ok then ⟨.eProviderErr, 0⟩ else ec : ErrorCode).ok = false
            split
            · rfl
            · next failed => simpa using failed
          simp [failed, errorsIn]
      | _ => rfl

end Sink

/-! ## A stream -/

/-- A round keeps what its sink makes of the events of the stream. -/
theorem replay_heard (frames : List StreamFrame) : ∀ (p : Adapter) (acc : Accum),
    (replay (p, acc) frames).2 = (heard p frames).foldl Accum.sink acc := by
  induction frames with
  | nil =>
      intro p acc
      rfl
  | cons frame rest inductionHypothesis =>
      intro p acc
      show (replay (deliver (p, acc) frame) rest).2 = _
      rw [show deliver (p, acc) frame =
          ((hear p frame).1, (hear p frame).2.foldl Accum.sink acc) from rfl, inductionHypothesis]
      unfold heard
      rw [Machine.feed_cons, List.foldl_append]

/-- A round is free of errors exactly when the adapter has reported none. -/
theorem quiet_replay (p : Adapter) (frames : List StreamFrame) :
    (replay (p, .blank) frames).2.providerErr.ok = true ↔ errorsIn (heard p frames) = [] := by
  rw [replay_heard, providerErr_ok_sink]
  exact and_iff_right rfl

end Opencodepp.Agent
