import Opencodepp.Library.Transition
import Opencodepp.Provider.Interface
import Opencodepp.Provider.Gemini

/-!
# What a stream of candidates comes to

Function calls arrive whole, in the parts of the first candidate of each value.  The adapter emits
them in order and numbers them from where it stands (`callsIn_feed`); the first value with a
finish reason ends the message, and no later one does (`endingsIn_feed`).
-/

set_option autoImplicit false

namespace Opencodepp.Provider

open Opencodepp.Core
open Opencodepp.Library
open Opencodepp.Util

namespace Gemini

/-! ## Values -/

/-- The candidate that is read. -/
def candidate (d : JVal) : Option JVal := ((getArr d "candidates").getD []).head?

def finishReason (d : JVal) : Bytes := ((candidate d).map (getStr · "finishReason")).getD []

def parts (d : JVal) : List JVal :=
  (((candidate d).bind (getObj · "content")).bind (getArr · "parts")).getD []

/-- The function call of a part: its name and its arguments. -/
def partCall (part : JVal) : Option (Bytes × Bytes) :=
  (getObj part "functionCall").map fun fn =>
    (getStr fn "name", ((getObj fn "args").map toJson).getD (str "\x7b\x7d"))

/-- The function calls of a frame. -/
def callsOf (frame : StreamFrame) : List (Bytes × Bytes) :=
  ((parseJson frame.data).toOption.map fun d => (parts d).filterMap partCall).getD []

/-- The message ends with the frame. -/
def endsMessage (frame : StreamFrame) : Bool :=
  ((parseJson frame.data).toOption.map fun d => (finishReason d ≠ [] : Bool)).getD false

/-- The id of a call with this number. -/
def callId (seq : UInt32) : Bytes := str "fc" ++ decimal seq.toNat

/-- Calls with the ids they are given. -/
def numbered (seq : UInt32) : List (Bytes × Bytes) → List ToolCallDone
  | [] => []
  | (name, input) :: rest => ⟨callId seq, name, input⟩ :: numbered (seq + 1) rest

/-- The number of the call after others. -/
def seqAfter (seq : UInt32) (calls : List (Bytes × Bytes)) : UInt32 :=
  calls.foldl (fun seq _ => seq + 1) seq

theorem seqAfter_append (seq : UInt32) (first second : List (Bytes × Bytes)) :
    seqAfter seq (first ++ second) = seqAfter (seqAfter seq first) second := List.foldl_append

theorem numbered_append (first second : List (Bytes × Bytes)) : ∀ seq : UInt32,
    numbered seq (first ++ second) = numbered seq first ++ numbered (seqAfter seq first) second := by
  induction first with
  | nil => exact fun _ => rfl
  | cons call rest inductionHypothesis =>
      intro seq
      exact congrArg (_ :: ·) (inductionHypothesis (seq + 1))

/-! ## One value -/

/-- What parts do: their calls are numbered and emitted, and nothing ends. -/
structure Read (calls : List (Bytes × Bytes)) (before after : Stream × List StreamEvent) :
    Prop where
  callSeq : after.1.callSeq = seqAfter before.1.callSeq calls
  doneEmitted : after.1.doneEmitted = before.1.doneEmitted
  callsIn_ : callsIn after.2 = callsIn before.2 ++ numbered before.1.callSeq calls
  endings : endingsIn after.2 = endingsIn before.2
  errors : errorsIn after.2 = errorsIn before.2

theorem Read.refl (acc : Stream × List StreamEvent) : Read [] acc acc :=
  ⟨rfl, rfl, (List.append_nil _).symm, rfl, rfl⟩

theorem Read.trans {calls calls' : List (Bytes × Bytes)}
    {first second third : Stream × List StreamEvent} (one : Read calls first second)
    (two : Read calls' second third) : Read (calls ++ calls') first third where
  callSeq := by rw [two.callSeq, one.callSeq, seqAfter_append]
  doneEmitted := two.doneEmitted.trans one.doneEmitted
  callsIn_ := by rw [two.callsIn_, one.callsIn_, one.callSeq, numbered_append, List.append_assoc]
  endings := two.endings.trans one.endings
  errors := two.errors.trans one.errors

/-- A part of the answer is no call. -/
theorem Read.delta (acc : Stream × List StreamEvent) {event : StreamEvent}
    (delta : event.isDelta = true) : Read [] acc (acc.1, acc.2 ++ [event]) := by
  have only : ∀ e ∈ [event], e.isDelta = true := fun e member => by
    rw [List.mem_singleton.mp member]
    exact delta
  refine ⟨rfl, rfl, ?_, ?_, ?_⟩
  · rw [callsIn_append, callsIn_of_deltas only]
    rfl
  · rw [endingsIn_append, endingsIn_of_deltas only, List.append_nil]
  · rw [errorsIn_append, errorsIn_of_deltas only, List.append_nil]

theorem read_candidatePart (acc : Stream × List StreamEvent) (part : JVal) :
    Read (partCall part).toList acc (candidatePart acc part) := by
  unfold partCall candidatePart
  cases getObj part "functionCall" with
  | some fn =>
      refine ⟨rfl, rfl, callsIn_append .., ?_, ?_⟩
      · rw [endingsIn_append]
        exact List.append_nil _
      · rw [errorsIn_append]
        exact List.append_nil _
  | none =>
      dsimp only
      split
      · exact Read.refl acc
      · split
        · exact Read.delta acc rfl
        · exact Read.delta acc rfl

theorem read_parts (ps : List JVal) : ∀ acc : Stream × List StreamEvent,
    Read (ps.filterMap partCall) acc (ps.foldl candidatePart acc) := by
  induction ps with
  | nil => exact Read.refl
  | cons part rest inductionHypothesis =>
      intro acc
      have both := (read_candidatePart acc part).trans
        (inductionHypothesis (candidatePart acc part))
      cases call : partCall part with
      | none =>
          rw [call] at both
          rw [List.filterMap_cons_none call]
          exact both
      | some call' =>
          rw [call] at both
          rw [List.filterMap_cons_some call]
          exact both

/-- What a frame does. -/
structure Heard (frame : StreamFrame) (st : Stream) (result : Stream × List StreamEvent) :
    Prop where
  callSeq : result.1.callSeq = seqAfter st.callSeq (callsOf frame)
  doneEmitted : result.1.doneEmitted = (st.doneEmitted || endsMessage frame)
  calls : callsIn result.2 = numbered st.callSeq (callsOf frame)
  endings : (endingsIn result.2).length = if endsMessage frame && !st.doneEmitted then 1 else 0
  errors : errorsIn result.2 = [] ↔ (parseJson frame.data).isOk = true

theorem heard_parseFrame (st : Stream) (frame : StreamFrame) :
    Heard frame st (parseFrame st frame) := by
  cases parsed : parseJson frame.data with
  | error e =>
      have none_ : callsOf frame = [] := by
        unfold callsOf
        rw [parsed]
        rfl
      have quiet : endsMessage frame = false := by
        unfold endsMessage
        rw [parsed]
        rfl
      unfold parseFrame
      rw [parsed]
      refine ⟨?_, ?_, ?_, ?_, ?_⟩
      · rw [none_]
        rfl
      · rw [quiet, Bool.or_false]
      · rw [none_]
        rfl
      · rw [quiet]
        rfl
      · rw [parsed]
        simp [errorsIn, Except.isOk, Except.toBool]
  | ok d =>
      have calls : callsOf frame = (parts d).filterMap partCall := by
        unfold callsOf
        rw [parsed]
        rfl
      have ends : endsMessage frame = (finishReason d ≠ [] : Bool) := by
        unfold endsMessage
        rw [parsed]
        rfl
      have taken := read_parts (parts d) (st, [])
      have chunked : parseFrame st frame = chunk st d := by
        unfold parseFrame
        rw [parsed]
      rw [← calls] at taken
      rw [chunked]
      show Heard frame st
        (let acc := (parts d).foldl candidatePart (st, [])
         let st := { acc.1 with usage := usageMetadata acc.1.usage (getObj d "usageMetadata") }
         if finishReason d ≠ [] && !st.doneEmitted then
           ({ st with doneEmitted := true },
             acc.2 ++ [.messageDone (mapFinish (finishReason d)) st.usage])
         else (st, acc.2))
      generalize (parts d).foldl candidatePart (st, []) = acc at taken
      have isOk : (parseJson frame.data).isOk = true := by
        rw [parsed]
        rfl
      dsimp only
      rw [taken.doneEmitted]
      by_cases finished : (finishReason d ≠ [] && !st.doneEmitted) = true
      · have both : finishReason d ≠ [] ∧ st.doneEmitted = false := by simpa using finished
        rw [if_pos finished]
        refine ⟨taken.callSeq, ?_, ?_, ?_, ?_⟩
        · rw [ends, decide_eq_true both.1, Bool.or_true]
        · rw [callsIn_append, taken.callsIn_]
          exact List.append_nil _
        · rw [endingsIn_append, taken.endings, ends, if_pos finished]
          rfl
        · rw [errorsIn_append, taken.errors]
          exact ⟨fun _ => isOk, fun _ => rfl⟩
      · rw [if_neg finished]
        refine ⟨taken.callSeq, ?_, taken.callsIn_, ?_, ?_⟩
        · rw [ends]
          show st.doneEmitted = _
          by_cases none_ : finishReason d = []
          · simp [none_]
          · have emitted : st.doneEmitted = true := by simpa [none_] using finished
            rw [emitted]
            rfl
        · rw [ends, if_neg finished, taken.endings]
          rfl
        · rw [taken.errors]
          exact ⟨fun _ => isOk, fun _ => rfl⟩

/-! ## A whole stream -/

/-- **The calls of a stream** are numbered in order. -/
theorem callsIn_feed (frames : List StreamFrame) : ∀ st : Stream,
    callsIn (Machine.feed parseFrame st frames).2 =
      numbered st.callSeq (frames.flatMap callsOf) := by
  induction frames with
  | nil => exact fun _ => rfl
  | cons frame rest inductionHypothesis =>
      intro st
      have now := heard_parseFrame st frame
      rw [Machine.feed_cons, callsIn_append, now.calls, inductionHypothesis, now.callSeq,
        List.flatMap_cons, numbered_append]

/-- **The message ends once.** -/
theorem endingsIn_feed (frames : List StreamFrame) : ∀ st : Stream,
    (endingsIn (Machine.feed parseFrame st frames).2).length =
      if frames.any endsMessage && !st.doneEmitted then 1 else 0 := by
  induction frames with
  | nil => exact fun _ => rfl
  | cons frame rest inductionHypothesis =>
      intro st
      have now := heard_parseFrame st frame
      rw [Machine.feed_cons, endingsIn_append, List.length_append, now.endings,
        inductionHypothesis, now.doneEmitted, List.any_cons]
      cases endsMessage frame <;> cases st.doneEmitted <;> simp

/-- A stream is free of errors exactly when all its frames are values. -/
theorem errorsIn_feed (frames : List StreamFrame) : ∀ st : Stream,
    errorsIn (Machine.feed parseFrame st frames).2 = [] ↔
      ∀ frame ∈ frames, (parseJson frame.data).isOk = true := by
  induction frames with
  | nil =>
      intro st
      simp [errorsIn]
  | cons frame rest inductionHypothesis =>
      intro st
      rw [Machine.feed_cons, errorsIn_append, List.append_eq_nil_iff, inductionHypothesis,
        (heard_parseFrame st frame).errors, List.forall_mem_cons]

end Gemini

end Opencodepp.Provider
