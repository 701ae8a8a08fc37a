import Opencodepp.Agent.States

/-!
# Events of the C interface

The translation of an event of the agent into the record a host sees.  The text goes into a
buffer of the caller, whose address and size the caller puts into the record beforehand.  The
translation starts by clearing the whole record, and with it that address: the text part finds
no buffer, whatever the caller has set (`marshal_drops_buffer`).

What the text part would do with a buffer is stated beside it (`fillText_delivers_iff`): it
writes the longest part of the line that fits, and reports its length only if the line fits.
-/

set_option autoImplicit false

namespace Opencodepp.Abi

open Opencodepp.Agent
open Opencodepp.Library

/-! ## Memory -/

/-- The memory of the process, byte by byte. -/
abbrev Memory := Nat → UInt8

/-- Write bytes at an address. -/
def Memory.store (mem : Memory) (address : Nat) (bytes : Bytes) : Memory := fun a =>
  if address ≤ a ∧ a < address + bytes.length then bytes.getD (a - address) 0 else mem a

/-- Read bytes at an address. -/
def Memory.load (mem : Memory) (address length : Nat) : Bytes :=
  (List.range length).map fun i => mem (address + i)

theorem Memory.load_store (mem : Memory) (address : Nat) (bytes : Bytes) :
    (mem.store address bytes).load address bytes.length = bytes := by
  refine List.ext_getElem (by simp [load]) fun i inRange inBytes => ?_
  simp [load, store, inBytes]

/-- Print a string into a buffer of the given, positive, capacity: its bytes up to a zero byte, cut
so that a terminating zero fits.  The result is the length of the whole; a length beyond the range
of an int is an error, which as a size is the largest number. -/
def snprintf (mem : Memory) (buffer capacity : Nat) (s : Bytes) : Nat × Memory :=
  (if (cString s).length < 2 ^ 31 then (cString s).length else 2 ^ 64 - 1,
    mem.store buffer ((cString s).take (capacity - 1) ++ [0]))

/-! ## The record -/

inductive EventKind
  | log
  | preparing
  | connecting
  | streaming
  | toolPhase
  | verifying
  | applying
  | done
  | failed
  | cancelled
  | fold
  deriving Repr, DecidableEq

def EventKind.code : EventKind → UInt32
  | .log => 1
  | .preparing => 2
  | .connecting => 3
  | .streaming => 4
  | .toolPhase => 5
  | .verifying => 6
  | .applying => 7
  | .done => 8
  | .failed => 9
  | .cancelled => 10
  | .fold => 11

/-- The record a host sees; a text that is not there is a null pointer. -/
structure CEvent where
  version : UInt32
  sessionId : UInt32
  kind : UInt32
  text : Option Nat
  textCap : Nat
  textLen : Nat
  dataI64 : Int64
  status : Nat
  lane : AgentLane
  deriving DecidableEq

def eventKind (ev : AgentEvent) : EventKind :=
  if ev.phase = str "fold" then .fold
  else
    match ev.state with
    | .idle => .log
    | .preparing => .preparing
    | .connecting => .connecting
    | .streaming => .streaming
    | .toolPhase => .toolPhase
    | .verifying => .verifying
    | .applying => .applying
    | .done => .done
    | .error => .failed
    | .cancelled => .cancelled

/-- The line of an event. -/
def eventLine (ev : AgentEvent) : Bytes :=
  if ev.detail = [] then ev.phase else ev.phase ++ str ": " ++ ev.detail

/-- Set every byte of a record to zero, whatever it held. -/
def CEvent.clear (_ : CEvent) : CEvent := ⟨0, 0, 0, none, 0, 0, 0, 0, .none⟩

/-- Fill in everything but the text. -/
def fillHeader (ev : AgentEvent) (sessionId : UInt32) (out : CEvent) : CEvent :=
  { out with
    version := 1
    sessionId := sessionId
    kind := (eventKind ev).code
    lane := ev.lane
    status := ev.status
    dataI64 := ev.tokensUsed.toInt64 }

/-- Print the line of the event into the buffer of the record. -/
def fillText (ev : AgentEvent) (out : CEvent) (mem : Memory) : CEvent × Memory :=
  match out.text with
  | none => (out, mem)
  | some buffer =>
      if out.textCap = 0 then (out, mem)
      else
        let printed := snprintf mem buffer out.textCap (eventLine ev)
        ({ out with textLen := if out.textCap < printed.1 then out.textCap else printed.1 },
          printed.2)

/-- Fill the record of the caller from an event. -/
def marshal (ev : AgentEvent) (out : CEvent) (sessionId : UInt32) (mem : Memory) :
    CEvent × Memory :=
  fillText ev (fillHeader ev sessionId out.clear) mem

/-! ## The text -/

/-- The caller's buffer is still in the record and holds the longest part of the line that fits,
with a zero byte after it; the length is the one of that part. -/
structure Delivers (ev : AgentEvent) (before after : CEvent) (mem : Memory) : Prop where
  text : after.text = before.text
  textCap : after.textCap = before.textCap
  content : ∀ buffer, before.text = some buffer →
    mem.load buffer (after.textLen + 1) = (eventLine ev).take (before.textCap - 1) ++ [0]
  textLen : after.textLen < before.textCap

/-- The text part of a record with a buffer. -/
theorem fillText_of_buffer {ev : AgentEvent} {out : CEvent} {mem : Memory} {buffer : Nat}
    (set : out.text = some buffer) (room : 0 < out.textCap) (clean : (0 : UInt8) ∉ eventLine ev)
    (small : (eventLine ev).length < 2 ^ 31) :
    fillText ev out mem =
      ({ out with textLen := min out.textCap (eventLine ev).length },
        mem.store buffer ((eventLine ev).take (out.textCap - 1) ++ [0])) := by
  have whole : cString (eventLine ev) = eventLine ev := cString_of_notMem clean
  have limit : (if out.textCap < (eventLine ev).length then out.textCap
      else (eventLine ev).length) = min out.textCap (eventLine ev).length := by
    split <;> omega
  unfold fillText snprintf
  simp only [set, Nat.pos_iff_ne_zero.mp room, if_false, whole, if_pos small, limit]

/-- **The text part on its own** delivers the line exactly when it fits with its zero byte. -/
theorem fillText_delivers_iff {ev : AgentEvent} {out : CEvent} {mem : Memory} {buffer : Nat}
    (set : out.text = some buffer) (room : 0 < out.textCap) (clean : (0 : UInt8) ∉ eventLine ev)
    (small : (eventLine ev).length < 2 ^ 31) :
    Delivers ev out (fillText ev out mem).1 (fillText ev out mem).2 ↔
      (eventLine ev).length < out.textCap := by
  rw [fillText_of_buffer set room clean small]
  constructor
  · intro delivers
    have reported : min out.textCap (eventLine ev).length < out.textCap := delivers.textLen
    omega
  · intro fits
    have length : min out.textCap (eventLine ev).length = (eventLine ev).length := by omega
    have uncut : (eventLine ev).take (out.textCap - 1) = eventLine ev :=
      List.take_of_length_le (by omega)
    refine ⟨rfl, rfl, ?_, ?_⟩
    · intro given same
      cases set.symm.trans same
      dsimp only
      rw [length, uncut]
      have loaded := mem.load_store buffer (eventLine ev ++ [0])
      rwa [List.length_append, List.length_singleton] at loaded
    · dsimp only
      omega

/-- **No buffer survives.**  Whatever buffer the caller has set, after the translation the record
does not point to it. -/
theorem marshal_drops_buffer (ev : AgentEvent) (out : CEvent) (sessionId : UInt32) (mem : Memory)
    (buffer : Nat) (set : out.text = some buffer) :
    ¬ Delivers ev out (marshal ev out sessionId mem).1 (marshal ev out sessionId mem).2 := by
  intro delivers
  -- The text part sees the cleared record, which has no buffer.
  have untouched : (marshal ev out sessionId mem).1.text = none := rfl
  have kept := delivers.text
  rw [untouched, set] at kept
  cases kept

/-- A record with a buffer of the size the engine uses. -/
def bufferedRecord : CEvent := ⟨0, 0, 0, some 64, 4096, 0, 0, 0, .none⟩

/-- An event with a text that fits. -/
def doneEvent : AgentEvent := ⟨.done, .none, str "done", str "summary", 7, 0⟩

theorem marshal_drops_buffer_done :
    bufferedRecord.text = some 64 ∧
    ¬ Delivers doneEvent bufferedRecord (marshal doneEvent bufferedRecord 1 fun _ => 0).1
      (marshal doneEvent bufferedRecord 1 fun _ => 0).2 :=
  ⟨rfl, marshal_drops_buffer doneEvent bufferedRecord 1 (fun _ => 0) 64 rfl⟩

/-- The host is handed a null pointer and an untouched buffer. -/
theorem marshal_hands_over_null :
    bufferedRecord.text = some 64 ∧
    (marshal doneEvent bufferedRecord 1 fun _ => 0).1.text = none ∧
    (marshal doneEvent bufferedRecord 1 fun _ => 0).1.textCap = 0 ∧
    (marshal doneEvent bufferedRecord 1 fun _ => 0).1.textLen = 0 ∧
    (marshal doneEvent bufferedRecord 1 fun _ => 0).2 64 = 0 ∧
    eventLine doneEvent = str "done: summary" := by
  decide

end Opencodepp.Abi
