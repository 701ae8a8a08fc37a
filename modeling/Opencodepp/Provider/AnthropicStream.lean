import Opencodepp.Library.Transition
import Opencodepp.Library.Tracks
import Opencodepp.Provider.Anthropic
import Opencodepp.Provider.Interface

/-!
# What a stream of content blocks comes to

A block that uses a tool is started, fed and stopped by frames of its index, between those of
other blocks.  The adapter emits a call at every stop of a block that is open, made of what the
frames of the block have brought (`callsIn_feed`), and the end of the message at every frame that
says so (`endingsIn_feed`).
-/

set_option autoImplicit false

namespace Opencodepp.Provider

open Opencodepp.Core
open Opencodepp.Library
open Opencodepp.Library.OrderedMap
open Opencodepp.Util

namespace Anthropic

/-! ## The steps of a block -/

/-- What a frame does to the call of a block. -/
inductive BlockStep
  | start (id name : Bytes)
  | fragment (text : Bytes)
  | stop
  deriving Repr, DecidableEq

/-- A stopped block is not open any more. -/
def BlockStep.apply : BlockStep → Option PendingTool → Option PendingTool
  | .start id name, _ => some ⟨id, name, []⟩
  | .fragment text, old => some (mergeFragment text old)
  | .stop, _ => none

/-- The start of a block that uses a tool. -/
def startStep (d : JVal) : Option (UInt64 × BlockStep) :=
  (getObj d "content_block").bind fun cb =>
    if getStr cb "type" = str "tool_use" then
      some (getNum d "index", .start (getStr cb "id") (getStr cb "name"))
    else none

/-- A piece of the arguments. -/
def fragmentStep (d : JVal) : Option (UInt64 × BlockStep) :=
  (getObj d "delta").bind fun delta =>
    if getStr delta "type" = str "input_json_delta" then
      some (getNum d "index", .fragment (getStr delta "partial_json"))
    else none

/-- The step of a value with this event name, and the index of its block. -/
def stepOf (event : Bytes) (d : JVal) : Option (UInt64 × BlockStep) :=
  if event = str "content_block_start" then startStep d
  else if event = str "content_block_delta" then fragmentStep d
  else if event = str "content_block_stop" then some (getNum d "index", .stop)
  else none

/-- The step of a frame. -/
def blockStep (frame : StreamFrame) : Option (UInt64 × BlockStep) :=
  (parseJson frame.data).toOption.bind (stepOf frame.event)

def blockUpdate (step : UInt64 × BlockStep) : Update UInt64 PendingTool := (step.1, step.2.apply)

/-- The call that is open under an index. -/
def openBlock (i : UInt64) (steps : List (UInt64 × BlockStep)) : Option PendingTool :=
  track i (steps.map blockUpdate) none

/-- The call a step closes after others. -/
def closing (before : List (UInt64 × BlockStep)) : UInt64 × BlockStep → Option ToolCallDone
  | (i, .stop) => (openBlock i before).map PendingTool.done
  | _ => none

/-- The calls that steps close, in order. -/
def closedCalls (before : List (UInt64 × BlockStep)) :
    List (UInt64 × BlockStep) → List ToolCallDone
  | [] => []
  | step :: rest => (closing before step).toList ++ closedCalls (before ++ [step]) rest

/-- The message ends with the frame. -/
def endsMessage (frame : StreamFrame) : Bool :=
  frame.event = str "message_stop" && (parseJson frame.data).isOk

/-! ## One frame -/

/-- The calls in progress are those the steps have left open. -/
structure Follows (st : Stream) (steps : List (UInt64 × BlockStep)) : Prop where
  ascending : Ascending st.pending
  open_ : ∀ i, st.pending.lookup i = openBlock i steps

theorem follows_reset : Follows .reset [] := ⟨List.Pairwise.nil, fun _ => rfl⟩

theorem openBlock_concat (i : UInt64) (steps : List (UInt64 × BlockStep))
    (step : UInt64 × BlockStep) : openBlock i (steps ++ [step]) =
      if i = step.1 then step.2.apply (openBlock i steps) else openBlock i steps := by
  unfold openBlock
  rw [List.map_append, track_append, List.map_singleton, track_cons, track_nil]
  by_cases same : i = step.1
  · rw [if_pos same, if_pos (show (blockUpdate step).1 = i from same.symm)]
    rfl
  · rw [if_neg same, if_neg (show (blockUpdate step).1 ≠ i from fun other => same other.symm)]

section Step

variable {st st' : Stream} {steps : List (UInt64 × BlockStep)}

theorem Follows.of_pending (follows : Follows st steps) (same : st'.pending = st.pending) :
    Follows st' steps := by
  refine ⟨?_, fun i => ?_⟩ <;> rw [same]
  · exact follows.ascending
  · exact follows.open_ i

/-- A step that leaves the call of its index open. -/
theorem Follows.upsert (follows : Follows st steps) {i : UInt64} {step : BlockStep}
    {change : Option PendingTool → PendingTool} (applies : ∀ old, step.apply old = some (change old))
    (changed : st'.pending = OrderedMap.upsert i change st.pending) :
    Follows st' (steps ++ [(i, step)]) := by
  refine ⟨changed ▸ ascending_upsert i change follows.ascending, fun j => ?_⟩
  rw [changed, lookup_upsert i j change follows.ascending, openBlock_concat, applies]
  by_cases same : j = i
  · rw [if_pos same, if_pos same, same, follows.open_]
  · rw [if_neg same, if_neg same, follows.open_]

/-- What a step emits of calls. -/
structure Emits (before : List (UInt64 × BlockStep)) (step : Option (UInt64 × BlockStep))
    (result : Stream × List StreamEvent) : Prop where
  follows : Follows result.1 (before ++ step.toList)
  calls : callsIn result.2 = (step.bind (closing before)).toList

theorem Emits.quiet (follows : Follows st steps) {result : Stream × List StreamEvent}
    (same : result.1.pending = st.pending) (none_ : callsIn result.2 = []) :
    Emits steps none result where
  follows := by
    rw [Option.toList_none, List.append_nil]
    exact follows.of_pending same
  calls := none_

theorem emits_blockStart (follows : Follows st steps) (d : JVal) :
    Emits steps (startStep d) (blockStart st d, []) := by
  unfold startStep blockStart
  cases getObj d "content_block" with
  | none => exact .quiet follows rfl rfl
  | some cb =>
      by_cases tool : getStr cb "type" = str "tool_use"
      · simp only [Option.bind_some, if_pos tool]
        exact ⟨follows.upsert (fun _ => rfl) rfl, rfl⟩
      · simp only [Option.bind_some, if_neg tool]
        exact .quiet follows rfl rfl

theorem emits_blockDelta (follows : Follows st steps) (d : JVal) :
    Emits steps (fragmentStep d) (blockDelta st d) := by
  unfold fragmentStep blockDelta
  cases getObj d "delta" with
  | none => exact .quiet follows rfl rfl
  | some delta =>
      rw [Option.bind_some]
      dsimp only
      by_cases text : getStr delta "type" = str "text_delta"
      · rw [if_pos text, if_neg (by rw [text]; decide)]
        exact .quiet follows rfl rfl
      rw [if_neg text]
      by_cases thinking : getStr delta "type" = str "thinking_delta"
      · rw [if_pos thinking, if_neg (by rw [thinking]; decide)]
        exact .quiet follows rfl rfl
      rw [if_neg thinking]
      by_cases input : getStr delta "type" = str "input_json_delta"
      · rw [if_pos input, if_pos input]
        exact ⟨follows.upsert (fun _ => rfl) rfl, rfl⟩
      · rw [if_neg input, if_neg input]
        exact .quiet follows rfl rfl

theorem emits_blockStop (follows : Follows st steps) (d : JVal) :
    Emits steps (some (getNum d "index", .stop)) (blockStop st d) := by
  have opened := follows.open_ (getNum d "index")
  unfold blockStop
  dsimp only
  cases found : st.pending.lookup (getNum d "index") with
  | none =>
      rw [found] at opened
      refine ⟨⟨follows.ascending, fun i => ?_⟩, ?_⟩
      · rw [Option.toList_some, openBlock_concat]
        by_cases same : i = getNum d "index"
        · rw [if_pos same, same, found]
          rfl
        · rw [if_neg same, follows.open_]
      · show [] = ((openBlock (getNum d "index") steps).map PendingTool.done).toList
        rw [← opened]
        rfl
  | some pt =>
      rw [found] at opened
      refine ⟨⟨ascending_erase _ follows.ascending, fun i => ?_⟩, ?_⟩
      · rw [Option.toList_some, openBlock_concat]
        show (OrderedMap.erase _ st.pending).lookup i = _
        rw [lookup_erase]
        by_cases same : i = getNum d "index"
        · rw [if_pos same, if_pos same]
          rfl
        · rw [if_neg same, if_neg same, follows.open_]
      · show [pt.done] = ((openBlock (getNum d "index") steps).map PendingTool.done).toList
        rw [← opened]
        rfl

theorem emits_dispatch (follows : Follows st steps) (event : Bytes) (d : JVal) :
    Emits steps (stepOf event d) (dispatch st event d) := by
  unfold stepOf
  by_cases starts : event = str "content_block_start"
  · rw [if_pos starts, starts]
    exact emits_blockStart follows d
  rw [if_neg starts]
  by_cases feeds : event = str "content_block_delta"
  · rw [if_pos feeds, feeds]
    exact emits_blockDelta follows d
  rw [if_neg feeds]
  by_cases stops : event = str "content_block_stop"
  · rw [if_pos stops, stops]
    exact emits_blockStop follows d
  rw [if_neg stops]
  -- the other events do not touch the calls
  unfold dispatch
  rw [if_neg starts, if_neg feeds, if_neg stops]
  split_ifs
  · exact .quiet follows rfl rfl
  · refine .quiet follows ?_ rfl
    unfold addUsage
    split <;> rfl
  · refine .quiet follows ?_ rfl
    unfold messageDelta addUsage
    dsimp only
    split <;> split <;> rfl
  · exact .quiet follows rfl rfl
  · exact .quiet follows rfl rfl
  · exact .quiet follows rfl rfl

theorem emits_parseFrame (follows : Follows st steps) (frame : StreamFrame) :
    Emits steps (blockStep frame) (parseFrame st frame) := by
  unfold blockStep parseFrame
  cases parseJson frame.data with
  | error e => exact .quiet follows rfl rfl
  | ok d => exact emits_dispatch follows frame.event d

end Step

/-! ## A whole stream -/

/-- **The calls of a stream** are those its blocks close. -/
theorem callsIn_feed (frames : List StreamFrame) : ∀ {st : Stream}
    {steps : List (UInt64 × BlockStep)}, Follows st steps →
      callsIn (Machine.feed parseFrame st frames).2 =
        closedCalls steps (frames.filterMap blockStep) := by
  induction frames with
  | nil => exact fun _ => rfl
  | cons frame rest inductionHypothesis =>
      intro st steps follows
      obtain ⟨next, calls⟩ := emits_parseFrame follows frame
      rw [Machine.feed_cons, callsIn_append, calls, inductionHypothesis next]
      cases step : blockStep frame with
      | none =>
          rw [List.filterMap_cons_none step]
          simp
      | some step' =>
          rw [List.filterMap_cons_some step]
          rfl

theorem endingsIn_dispatch (st : Stream) (event : Bytes) (d : JVal) :
    (endingsIn (dispatch st event d).2).length = if event = str "message_stop" then 1 else 0 := by
  have deltas : (endingsIn (blockDelta st d).2).length = 0 := by
    unfold blockDelta
    split
    · rfl
    · dsimp only
      split_ifs <;> rfl
  have stops : (endingsIn (blockStop st d).2).length = 0 := by
    unfold blockStop
    dsimp only
    split <;> rfl
  by_cases ends : event = str "message_stop"
  · rw [if_pos ends, ends]
    rfl
  · rw [if_neg ends]
    unfold dispatch
    rw [if_neg ends]
    split_ifs
    · rfl
    · rfl
    · rfl
    · exact deltas
    · exact stops
    · rfl
    · rfl
    · rfl

theorem endingsIn_parseFrame (st : Stream) (frame : StreamFrame) :
    (endingsIn (parseFrame st frame).2).length = if endsMessage frame then 1 else 0 := by
  unfold parseFrame endsMessage
  cases parseJson frame.data with
  | error e =>
      have none_ : (Except.error e : Except Failure JVal).isOk = false := rfl
      rw [none_, Bool.and_false]
      rfl
  | ok d =>
      have some_ : (Except.ok d : Except Failure JVal).isOk = true := rfl
      rw [some_, Bool.and_true]
      simpa using endingsIn_dispatch st frame.event d

/-- **The message ends at every frame that says so.** -/
theorem endingsIn_feed (frames : List StreamFrame) : ∀ st : Stream,
    (endingsIn (Machine.feed parseFrame st frames).2).length = frames.countP endsMessage := by
  induction frames with
  | nil => exact fun _ => rfl
  | cons frame rest inductionHypothesis =>
      intro st
      rw [Machine.feed_cons, endingsIn_append, List.length_append, endingsIn_parseFrame,
        inductionHypothesis, List.countP_cons, Nat.add_comm]

end Anthropic

end Opencodepp.Provider
