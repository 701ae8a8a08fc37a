import Opencodepp.Core.Error
import Opencodepp.Library.ByteString
import Opencodepp.Library.LineBuffer

/-!
# Event streams

A response body arrives in parts of any size and is turned into events.  In a stream of
server-sent events a blank line ends a frame; in a stream of JSON values every line is one.  The
parser keeps the line it is in and the fields of the frame it is in between two calls.

The reference semantics looks at the whole stream: its lines, the frames between blank lines,
and the event of each frame.  `sse_delivers_reference` says that a parser whose limits are not
reached delivers just these events, however the stream was cut, and when the limits are reached.
-/

set_option autoImplicit false

namespace Opencodepp.Net

open Opencodepp.Core
open Opencodepp.Library

/-! ## The parser -/

inductive StreamKind
  | sse
  | jsonl
  deriving Repr, DecidableEq

structure SseEvent where
  id : Bytes
  event : Bytes
  data : Bytes
  deriving Repr, DecidableEq

/-- The state between two calls.  `frame` is the line that has not ended yet; the other texts are
the fields of the frame that has not ended yet. -/
structure SseParser where
  kind : StreamKind
  frame : Bytes
  data : Bytes
  id : Bytes
  event : Bytes
  emitted : Nat
  dropped : Nat
  maxFrame : Nat
  maxEvents : Nat
  deriving Repr, DecidableEq

namespace SseParser

def lineFeed : UInt8 := 0x0a

/-- A parser with its limits; no limit of events is zero. -/
def fresh (kind : StreamKind) (maxFrame maxEvents : Nat) : SseParser :=
  ⟨kind, [], [], [], [], 0, 0, maxFrame, maxEvents⟩

/-- Hand an event to the sink and count it. -/
def deliver (p : SseParser) (ev : SseEvent) : SseParser × List SseEvent × Except Failure Unit :=
  let p := { p with emitted := p.emitted + 1 }
  (p, [ev],
    if p.maxEvents ≠ 0 && p.maxEvents ≤ p.emitted then .error (.of .eNetOverflow) else .ok ())

/-- The end of a frame. -/
def emit (p : SseParser) : SseParser × List SseEvent × Except Failure Unit :=
  match p.kind with
  | .jsonl =>
      if p.data ≠ [] then deliver { p with data := [] } ⟨[], str "message", p.data⟩
      else (p, [], .ok ())
  | .sse =>
      if p.data = [] && p.id = [] && p.event = [] then
        ({ p with dropped := (p.dropped + 1) % 2 ^ 32 }, [], .ok ())
      else
        deliver { p with data := [], id := [], event := [] }
          ⟨p.id, p.event, if p.data.getLast? = some lineFeed then p.data.dropLast else p.data⟩

/-- The name and the value of a field; one space after the colon is not part of the value. -/
def splitField (l : Bytes) : Option (Bytes × Bytes) :=
  if l.contains (ch ':') then
    let value := (l.dropWhile (· ≠ ch ':')).drop 1
    some (l.takeWhile (· ≠ ch ':'), if value.head? = some (ch ' ') then value.drop 1 else value)
  else none

/-- Keep a field; an unknown one is passed by. -/
def store (p : SseParser) (field value : Bytes) : SseParser :=
  if field = str "data" then { p with data := p.data ++ value ++ [lineFeed] }
  else if field = str "id" then { p with id := value }
  else if field = str "event" then { p with event := value }
  else p

/-- One line without its end. -/
def line (p : SseParser) (l : Bytes) : SseParser × List SseEvent × Except Failure Unit :=
  match p.kind with
  | .jsonl => emit { p with data := l }
  | .sse =>
      if l = [] then p.emit
      else if l.head? = some (ch ':') then (p, [], .ok ())
      else if l.head? = some (ch ' ') then (p, [], .ok ())
      else
        match splitField l with
        | none => (p, [], .ok ())
        | some (field, value) => (p.store field value, [], .ok ())

/-- A line without a carriage return at its end. -/
def stripReturn (l : Bytes) : Bytes := if l.getLast? = some 0x0d then l.dropLast else l

/-- The loop over the lines of the buffer.  `begun` is what was passed of the line that has not
ended; after a failure the buffer is what follows the line that failed. -/
def drain (p : SseParser) (begun : Bytes) : Bytes → SseParser × List SseEvent × Except Failure Unit
  | [] => ({ p with frame := begun }, [], .ok ())
  | b :: rest =>
      if b = lineFeed then
        match p.line (stripReturn begun) with
        | (p, events, .error e) => ({ p with frame := rest }, events, .error e)
        | (p, events, .ok ()) =>
            let after := drain p [] rest
            (after.1, events ++ after.2.1, after.2.2)
      else drain p (begun ++ [b]) rest

/-- One call: the parser after it, the events handed to the sink, and what it returns. -/
def feed (p : SseParser) (abort : Bool) (input : Bytes) :
    SseParser × List SseEvent × Except Failure Unit :=
  if input = [] then (p, [], .ok ())
  else if abort then (p, [], .error (.of .eCancelled))
  else if p.maxFrame < p.frame.length + input.length then (p, [], .error (.of .eNetOverflow))
  else p.drain [] (p.frame ++ input)

/-- Calls one after the other, up to the first that fails, the abort flag clear. -/
def feedAll (p : SseParser) : List Bytes → SseParser × List SseEvent × Except Failure Unit
  | [] => (p, [], .ok ())
  | piece :: rest =>
      match p.feed false piece with
      | (p, events, .error e) => (p, events, .error e)
      | (p, events, .ok ()) =>
          let after := feedAll p rest
          (after.1, events ++ after.2.1, after.2.2)

end SseParser

/-! ## What a stream means -/

open SseParser

/-- A line without a carriage return behind it. -/
def bareLine (l : Bytes) : Bytes := if [0x0d] <:+ l then l.take (l.length - 1) else l

/-- The lines of a stream that have ended, without their ends. -/
def linesOf (stream : Bytes) : List Bytes := (finished lineFeed stream).map bareLine

/-- What is before the first colon of a line and what is behind it. -/
def aroundColon : Bytes → Option (Bytes × Bytes)
  | [] => none
  | b :: rest =>
      if b = ch ':' then some ([], rest)
      else (aroundColon rest).map fun around => (b :: around.1, around.2)

/-- A value without the space in front of it. -/
def withoutSpace (value : Bytes) : Bytes := if [ch ' '] <+: value then value.tail else value

/-- The field of a line; comments and lines that start with a space have none. -/
def fieldOf (l : Bytes) : Option (Bytes × Bytes) :=
  if [ch ':'] <+: l ∨ [ch ' '] <+: l then none
  else (aroundColon l).map fun around => (around.1, withoutSpace around.2)

/-- The values a field has in the lines of a frame. -/
def valuesOf (name : Bytes) (lines : List Bytes) : List Bytes :=
  (lines.filterMap fieldOf).filterMap fun f => if f.1 = name then some f.2 else none

/-- The last value of a field, or nothing. -/
def lastOf (name : Bytes) (lines : List Bytes) : Bytes := ((valuesOf name lines).getLast?).getD []

/-- The event of a frame; a frame without data, id and event has none. -/
def frameEvent (lines : List Bytes) : Option SseEvent :=
  if valuesOf (str "data") lines = [] && lastOf (str "id") lines = [] &&
      lastOf (str "event") lines = [] then none
  else
    some ⟨lastOf (str "id") lines, lastOf (str "event") lines,
      [lineFeed].intercalate (valuesOf (str "data") lines)⟩

/-- The events of the lines of a stream. -/
def eventsOf : StreamKind → List Bytes → List SseEvent
  | .sse, lines => (finished [] lines).filterMap frameEvent
  | .jsonl, lines =>
      lines.filterMap fun l => if l = [] then none else some ⟨[], str "message", l⟩

/-- The events of a stream. -/
def reference (kind : StreamKind) (stream : Bytes) : List SseEvent := eventsOf kind (linesOf stream)

/-- No call after a given part of the stream brings more than the limit together with the line
that is open. -/
def FitsFrame (maxFrame : Nat) : Bytes → List Bytes → Prop
  | _, [] => True
  | passed, piece :: rest =>
      (piece = [] ∨ (unfinished lineFeed passed).length + piece.length ≤ maxFrame) ∧
        FitsFrame maxFrame (passed ++ piece) rest

/-- The events of a stream stay below the limit. -/
def FitsEvents (kind : StreamKind) (maxEvents : Nat) (stream : Bytes) : Prop :=
  maxEvents = 0 ∨ (reference kind stream).length < maxEvents

/-! ## The parser's lines and fields -/

theorem bareLine_eq (l : Bytes) : bareLine l = stripReturn l := by
  unfold bareLine stripReturn
  have last : [0x0d] <:+ l ↔ l.getLast? = some 0x0d :=
    ⟨fun ⟨front, whole⟩ => List.getLast?_eq_some_iff.mpr ⟨front, whole.symm⟩,
      fun ends => (List.getLast?_eq_some_iff.mp ends).imp fun _ whole => whole.symm⟩
  rw [List.dropLast_eq_take]
  by_cases ends : [0x0d] <:+ l
  · rw [if_pos ends, if_pos (last.mp ends)]
  · rw [if_neg ends, if_neg (mt last.mpr ends)]

theorem linesOf_eq (stream : Bytes) :
    linesOf stream = (finished lineFeed stream).map stripReturn :=
  List.map_congr_left fun l _ => bareLine_eq l

theorem starts_iff {b : UInt8} {l : Bytes} : [b] <+: l ↔ l.head? = some b := by
  cases l with
  | nil => simp
  | cons c rest => simp [eq_comm]

theorem aroundColon_eq (l : Bytes) : aroundColon l =
    if l.contains (ch ':') then
      some (l.takeWhile (· ≠ ch ':'), (l.dropWhile (· ≠ ch ':')).drop 1)
    else none := by
  induction l with
  | nil => rfl
  | cons b rest inductionHypothesis =>
      unfold aroundColon
      rw [inductionHypothesis]
      by_cases colon : b = ch ':'
      · simp [colon]
      · have other : ¬ch ':' = b := fun same => colon same.symm
        by_cases later : ch ':' ∈ rest
        · simp [colon, later]
        · simp [colon, other, later]

theorem splitField_eq (l : Bytes) :
    (aroundColon l).map (fun around => (around.1, withoutSpace around.2)) = splitField l := by
  have space (value : Bytes) : withoutSpace value =
      if value.head? = some (ch ' ') then value.drop 1 else value := by
    unfold withoutSpace
    simp only [starts_iff, List.drop_one]
  rw [aroundColon_eq]
  unfold splitField
  split
  · exact congrArg (fun value => some (_, value)) (space _)
  · rfl

/-- The field of a line that the parser reads. -/
theorem fieldOf_eq (l : Bytes) : fieldOf l =
    if l.head? = some (ch ':') ∨ l.head? = some (ch ' ') then none else splitField l := by
  unfold fieldOf
  rw [splitField_eq]
  simp only [starts_iff]

/-! ## Fields of the open frame -/

theorem valuesOf_append (name : Bytes) (first second : List Bytes) :
    valuesOf name (first ++ second) = valuesOf name first ++ valuesOf name second := by
  simp [valuesOf]

theorem valuesOf_singleton_of_none (name : Bytes) {l : Bytes} (none_ : fieldOf l = none) :
    valuesOf name [l] = [] := by
  simp [valuesOf, none_]

theorem valuesOf_singleton_of_some (name : Bytes) {l field value : Bytes}
    (some_ : fieldOf l = some (field, value)) :
    valuesOf name [l] = if field = name then [value] else [] := by
  by_cases same : field = name <;> simp [valuesOf, some_, same]

theorem lastOf_append (name : Bytes) (first second : List Bytes) :
    lastOf name (first ++ second) =
      ((valuesOf name second).getLast?).getD (lastOf name first) := by
  rw [lastOf, lastOf, valuesOf_append, List.getLast?_append]
  cases (valuesOf name second).getLast? <;> rfl

theorem SseParser.store_config (p : SseParser) (field value : Bytes) :
    (p.store field value).kind = p.kind ∧ (p.store field value).maxFrame = p.maxFrame ∧
      (p.store field value).maxEvents = p.maxEvents ∧
      (p.store field value).emitted = p.emitted := by
  unfold SseParser.store
  split_ifs <;> exact ⟨rfl, rfl, rfl, rfl⟩

/-- The parser holds the fields of the lines of a frame. -/
structure HoldsFields (p : SseParser) (lines : List Bytes) : Prop where
  data : p.data = (valuesOf (str "data") lines).flatMap (· ++ [lineFeed])
  id : p.id = lastOf (str "id") lines
  event : p.event = lastOf (str "event") lines

/-- Keeping the field of one more line. -/
theorem HoldsFields.store {p : SseParser} {lines : List Bytes} {l field value : Bytes}
    (holds : HoldsFields p lines) (found : fieldOf l = some (field, value)) :
    HoldsFields (p.store field value) (lines ++ [l]) := by
  have idData : str "id" ≠ str "data" := by decide
  have eventData : str "event" ≠ str "data" := by decide
  have eventId : str "event" ≠ str "id" := by decide
  have values (name : Bytes) := valuesOf_singleton_of_some name found
  unfold SseParser.store
  by_cases data : field = str "data"
  · rw [if_pos data]
    refine ⟨?_, ?_, ?_⟩
    · simp [valuesOf_append, values, data, holds.data]
    · simp [lastOf_append, values, data, idData.symm, holds.id]
    · simp [lastOf_append, values, data, eventData.symm, holds.event]
  · rw [if_neg data]
    by_cases id : field = str "id"
    · rw [if_pos id]
      refine ⟨?_, ?_, ?_⟩
      · simp [valuesOf_append, values, id, idData, holds.data]
      · simp [lastOf_append, values, id]
      · simp [lastOf_append, values, id, eventId.symm, holds.event]
    · rw [if_neg id]
      by_cases event : field = str "event"
      · rw [if_pos event]
        refine ⟨?_, ?_, ?_⟩
        · simp [valuesOf_append, values, event, eventData, holds.data]
        · simp [lastOf_append, values, event, eventId, holds.id]
        · simp [lastOf_append, values, event]
      · rw [if_neg event]
        refine ⟨?_, ?_, ?_⟩
        · simp [valuesOf_append, values, data, holds.data]
        · simp [lastOf_append, values, id, holds.id]
        · simp [lastOf_append, values, event, holds.event]

/-- A line without a field changes nothing. -/
theorem HoldsFields.skip {p : SseParser} {lines : List Bytes} {l : Bytes}
    (holds : HoldsFields p lines) (none_ : fieldOf l = none) : HoldsFields p (lines ++ [l]) := by
  refine ⟨?_, ?_, ?_⟩
  · simp [valuesOf_append, valuesOf_singleton_of_none _ none_, holds.data]
  · simp [lastOf_append, valuesOf_singleton_of_none _ none_, holds.id]
  · simp [lastOf_append, valuesOf_singleton_of_none _ none_, holds.event]

/-- The buffer of data lines without its last line end is the values joined. -/
theorem dropLast_flatMap_lineFeed {values : List Bytes} (some_ : values ≠ []) :
    (values.flatMap (· ++ [lineFeed])).dropLast = [lineFeed].intercalate values := by
  induction values with
  | nil => exact absurd rfl some_
  | cons value rest inductionHypothesis =>
      cases rest with
      | nil => simp [List.intercalate]
      | cons next rest =>
          have tail := inductionHypothesis (by simp)
          rw [List.flatMap_cons, List.dropLast_append_of_ne_nil (by simp), tail]
          simp [List.intercalate]

theorem getLast_flatMap_lineFeed {values : List Bytes} (some_ : values ≠ []) :
    (values.flatMap (· ++ [lineFeed])).getLast? = some lineFeed := by
  rcases List.eq_nil_or_concat values with none_ | ⟨front, last, rfl⟩
  · exact absurd none_ some_
  · simp [← List.append_assoc]

/-! ## Following the lines -/

/-- The number of events is still below the limit. -/
def Below (p : SseParser) (lines : List Bytes) : Prop :=
  p.maxEvents = 0 ∨ (eventsOf p.kind lines).length < p.maxEvents

/-- The parser is where the lines of the stream have brought it. -/
structure Tracks (p : SseParser) (lines : List Bytes) : Prop where
  fields : p.kind = .sse → HoldsFields p (unfinished [] lines)
  count : p.emitted = (eventsOf p.kind lines).length
  below : Below p lines

/-- The outcome of going through more lines: it is a success as long as the events stay below the
limit, and then the events delivered are those of these lines. -/
structure Advances (p : SseParser) (lines more : List Bytes)
    (r : SseParser × List SseEvent × Except Failure Unit) : Prop where
  kind : r.1.kind = p.kind
  maxFrame : r.1.maxFrame = p.maxFrame
  maxEvents : r.1.maxEvents = p.maxEvents
  ok_iff : r.2.2 = .ok () ↔ Below p (lines ++ more)
  events : r.2.2 = .ok () →
    eventsOf p.kind (lines ++ more) = eventsOf p.kind lines ++ r.2.1
  tracks : r.2.2 = .ok () → Tracks r.1 (lines ++ more)

/-- More lines never take an event back. -/
theorem length_eventsOf_le (kind : StreamKind) (lines more : List Bytes) :
    (eventsOf kind lines).length ≤ (eventsOf kind (lines ++ more)).length := by
  cases kind with
  | sse =>
      simp only [eventsOf, (finished_unfinished_append lines more).1, List.filterMap_append,
        List.length_append]
      exact Nat.le_add_right ..
  | jsonl =>
      simp only [eventsOf, List.filterMap_append, List.length_append]
      exact Nat.le_add_right ..

theorem Below.mono {p : SseParser} {lines more : List Bytes} (below : Below p (lines ++ more)) :
    Below p lines := by
  rcases below with unlimited | below
  · exact .inl unlimited
  · exact .inr (Nat.lt_of_le_of_lt (length_eventsOf_le p.kind lines more) below)

/-- A failure stays one whatever lines were still to come. -/
theorem Advances.of_error {p q : SseParser} {lines more rest : List Bytes}
    {events : List SseEvent} {e : Failure} {frame : Bytes}
    (advances : Advances p lines more (q, events, .error e)) :
    Advances p lines (more ++ rest) ({ q with frame := frame }, events, .error e) where
  kind := advances.kind
  maxFrame := advances.maxFrame
  maxEvents := advances.maxEvents
  ok_iff := by
    have failed := advances.ok_iff
    simp only [reduceCtorEq, false_iff] at failed ⊢
    rw [← List.append_assoc]
    exact fun below => failed below.mono
  events := fun impossible => by cases impossible
  tracks := fun impossible => by cases impossible

/-- A success and what comes after it. -/
theorem Advances.trans {p q : SseParser} {lines more rest : List Bytes}
    {events : List SseEvent} {r : SseParser × List SseEvent × Except Failure Unit}
    (first : Advances p lines more (q, events, .ok ()))
    (second : Advances q (lines ++ more) rest r) :
    Advances p lines (more ++ rest) (r.1, events ++ r.2.1, r.2.2) where
  kind := second.kind.trans first.kind
  maxFrame := second.maxFrame.trans first.maxFrame
  maxEvents := second.maxEvents.trans first.maxEvents
  ok_iff := by
    have kind : q.kind = p.kind := first.kind
    have maxEvents : q.maxEvents = p.maxEvents := first.maxEvents
    simpa only [Below, kind, maxEvents, List.append_assoc] using second.ok_iff
  events := fun ok => by
    have kind : q.kind = p.kind := first.kind
    have before := first.events rfl
    have after := second.events ok
    rw [kind] at after
    rw [← List.append_assoc, after, before, List.append_assoc]
  tracks := fun ok => by
    rw [← List.append_assoc]
    exact second.tracks ok

/-! ## One line -/

section Line

variable {p q : SseParser} {lines more : List Bytes}

/-- A line that brings an event. -/
theorem advances_deliver {ev : SseEvent} (tracks : Tracks p lines) (kind : q.kind = p.kind)
    (maxFrame : q.maxFrame = p.maxFrame) (maxEvents : q.maxEvents = p.maxEvents)
    (emitted : q.emitted = p.emitted)
    (one : eventsOf p.kind (lines ++ more) = eventsOf p.kind lines ++ [ev])
    (fields : q.kind = .sse → HoldsFields q (unfinished [] (lines ++ more))) :
    Advances p lines more (q.deliver ev) := by
  have count : q.emitted + 1 = (eventsOf p.kind (lines ++ more)).length := by
    rw [one, emitted, tracks.count, List.length_append, List.length_singleton]
  have ok : (q.deliver ev).2.2 = .ok () ↔ Below p (lines ++ more) := by
    simp only [SseParser.deliver, Below, ← count, maxEvents]
    split
    · next reached =>
        simp only [ne_eq, Bool.and_eq_true, decide_eq_true_eq] at reached
        simp only [reduceCtorEq, false_iff]
        omega
    · next notReached =>
        simp only [ne_eq, Bool.and_eq_true, decide_eq_true_eq, not_and] at notReached
        simp only [true_iff]
        omega
  refine ⟨kind, maxFrame, maxEvents, ok, fun _ => one, fun isOk => ⟨?_, ?_, ?_⟩⟩
  · intro isSse
    obtain ⟨data, id, event⟩ := fields isSse
    exact ⟨data, id, event⟩
  · exact count.trans (by rw [← kind]; rfl)
  · have below := ok.mp isOk
    rwa [Below, ← kind, ← maxEvents] at below

/-- A line that brings none. -/
theorem advances_quiet (tracks : Tracks p lines) (kind : q.kind = p.kind)
    (maxFrame : q.maxFrame = p.maxFrame) (maxEvents : q.maxEvents = p.maxEvents)
    (emitted : q.emitted = p.emitted)
    (none_ : eventsOf p.kind (lines ++ more) = eventsOf p.kind lines)
    (fields : q.kind = .sse → HoldsFields q (unfinished [] (lines ++ more))) :
    Advances p lines more (q, [], .ok ()) := by
  have below : Below p (lines ++ more) := by
    rw [Below, none_]
    exact tracks.below
  refine ⟨kind, maxFrame, maxEvents, by simp [below], fun _ => by simp [none_], fun _ =>
    ⟨fields, ?_, ?_⟩⟩
  · rw [emitted, tracks.count, kind, none_]
  · rwa [Below, kind, maxEvents]

/-- The end of a frame of server-sent events. -/
theorem advances_emit (tracks : Tracks p lines) (isSse : p.kind = .sse) :
    Advances p lines [[]] p.emit := by
  obtain ⟨data, id, event⟩ := tracks.fields isSse
  have closed : eventsOf p.kind (lines ++ [[]]) =
      eventsOf p.kind lines ++ (frameEvent (unfinished [] lines)).toList := by
    rw [isSse]
    simp only [eventsOf, finished_concat_separator, List.filterMap_append, List.append_cancel_left_eq]
    cases frame : frameEvent (unfinished [] lines) <;> simp [frame]
  have open_ : unfinished [] (lines ++ [[]]) = [] := unfinished_concat_separator lines
  have dataEmpty : p.data = [] ↔ valuesOf (str "data") (unfinished [] lines) = [] := by
    rw [data, List.flatMap_eq_nil_iff]
    constructor
    · intro all
      refine List.eq_nil_iff_forall_not_mem.mpr fun value member => ?_
      exact absurd (all value member) (by simp)
    · intro none_
      simp [none_]
  unfold SseParser.emit
  simp only [isSse]
  by_cases nothing : p.data = [] ∧ p.id = [] ∧ p.event = []
  · obtain ⟨noData, noId, noEvent⟩ := nothing
    have noFrame : frameEvent (unfinished [] lines) = none := by
      simp [frameEvent, dataEmpty.mp noData, ← id, ← event, noId, noEvent]
    rw [if_pos (by simp [noData, noId, noEvent])]
    refine advances_quiet tracks isSse.symm rfl rfl rfl (by rw [closed, noFrame]; simp) fun _ => ?_
    rw [open_]
    exact ⟨noData, noId, noEvent⟩
  · have aFrame : frameEvent (unfinished [] lines) = some ⟨p.id, p.event,
        [lineFeed].intercalate (valuesOf (str "data") (unfinished [] lines))⟩ := by
      rw [frameEvent, ← id, ← event, if_neg]
      simpa [dataEmpty, and_assoc] using nothing
    have joined : (if p.data.getLast? = some lineFeed then p.data.dropLast else p.data) =
        [lineFeed].intercalate (valuesOf (str "data") (unfinished [] lines)) := by
      by_cases noData : p.data = []
      · simp [noData, dataEmpty.mp noData]
      · have values : valuesOf (str "data") (unfinished [] lines) ≠ [] := fun none_ =>
          noData (dataEmpty.mpr none_)
        rw [data, getLast_flatMap_lineFeed values, if_pos rfl, dropLast_flatMap_lineFeed values]
    rw [if_neg (by simpa [and_assoc] using nothing), joined]
    refine advances_deliver tracks isSse.symm rfl rfl rfl (by rw [closed, aFrame]; simp) fun _ => ?_
    rw [open_]
    exact ⟨rfl, rfl, rfl⟩

/-- A line that is not blank belongs to the open frame. -/
theorem eventsOf_concat_of_ne {l : Bytes} (nonempty : l ≠ []) (lines : List Bytes) :
    eventsOf .sse (lines ++ [l]) = eventsOf .sse lines := by
  simp only [eventsOf, finished_concat_of_ne nonempty]

/-- **What one line does.** -/
theorem advances_line (tracks : Tracks p lines) (l : Bytes) :
    Advances p lines [l] (p.line l) := by
  cases kind : p.kind with
  | jsonl =>
      have shape : p.line l = SseParser.emit { p with data := l } := by
        simp only [SseParser.line, kind]
      rw [shape, SseParser.emit]
      simp only [kind]
      by_cases empty : l = []
      · rw [if_neg (by simp [empty])]
        refine advances_quiet tracks kind.symm rfl rfl rfl ?_ fun isSse => ?_
        · simp [kind, eventsOf, empty]
        · cases isSse
      · rw [if_pos (by simpa using empty)]
        refine advances_deliver tracks kind.symm rfl rfl rfl ?_ fun isSse => ?_
        · simp [kind, eventsOf, empty]
        · cases isSse
  | sse =>
      simp only [SseParser.line, kind]
      by_cases blank : l = []
      · rw [if_pos blank, blank]
        exact advances_emit tracks kind
      · have same : eventsOf p.kind (lines ++ [l]) = eventsOf p.kind lines := by
          rw [kind, eventsOf_concat_of_ne blank]
        have held := tracks.fields kind
        have skipped (none_ : fieldOf l = none) : Advances p lines [l] (p, [], .ok ()) := by
          refine advances_quiet tracks rfl rfl rfl rfl same fun _ => ?_
          rw [unfinished_concat_of_ne blank]
          exact held.skip none_
        rw [if_neg blank]
        by_cases comment : l.head? = some (ch ':')
        · rw [if_pos comment]
          exact skipped (by simp [fieldOf_eq, comment])
        · rw [if_neg comment]
          by_cases indented : l.head? = some (ch ' ')
          · rw [if_pos indented]
            exact skipped (by simp [fieldOf_eq, indented])
          · rw [if_neg indented]
            have split : fieldOf l = splitField l := by simp [fieldOf_eq, comment, indented]
            cases found : splitField l with
            | none => exact skipped (split.trans found)
            | some pair =>
                obtain ⟨field, value⟩ := pair
                have stored := held.store (split.trans found)
                obtain ⟨sameKind, sameFrame, sameEvents, sameCount⟩ := p.store_config field value
                refine advances_quiet tracks sameKind sameFrame sameEvents sameCount same
                  fun _ => ?_
                rwa [unfinished_concat_of_ne blank]

end Line

/-! ## One call -/

/-- The loop goes through the lines that end in the buffer and keeps the rest. -/
theorem advances_drain : ∀ (rest begun : Bytes) {p : SseParser} {lines : List Bytes},
    lineFeed ∉ begun → Tracks p lines →
      Advances p lines ((finished lineFeed (begun ++ rest)).map stripReturn) (p.drain begun rest) ∧
        ((p.drain begun rest).2.2 = .ok () →
          (p.drain begun rest).1.frame = unfinished lineFeed (begun ++ rest)) := by
  intro rest
  induction rest with
  | nil =>
      intro begun p lines plain tracks
      rw [List.append_nil, finished_of_notMem plain, unfinished_of_notMem plain]
      refine ⟨advances_quiet tracks rfl rfl rfl rfl (by simp) fun isSse => ?_, fun _ => rfl⟩
      obtain ⟨data, id, event⟩ := tracks.fields isSse
      rw [List.map_nil, List.append_nil]
      exact ⟨data, id, event⟩
  | cons b rest inductionHypothesis =>
      intro begun p lines plain tracks
      rw [SseParser.drain]
      by_cases ends : b = lineFeed
      · rw [if_pos ends, ends, finished_piece plain, List.map_cons, ← List.singleton_append,
          unfinished_append_separator]
        have here := advances_line tracks (stripReturn begun)
        generalize p.line (stripReturn begun) = outcome at here ⊢
        obtain ⟨q, events, result⟩ := outcome
        cases result with
        | error e => exact ⟨here.of_error, fun impossible => by cases impossible⟩
        | ok done =>
            obtain ⟨later, frame⟩ := inductionHypothesis [] List.not_mem_nil (here.tracks rfl)
            exact ⟨here.trans later, frame⟩
      · rw [if_neg ends]
        have plainMore : lineFeed ∉ begun ++ [b] := by
          simpa [plain] using fun same : lineFeed = b => ends same.symm
        have shape : begun ++ b :: rest = begun ++ [b] ++ rest := by simp
        rw [shape]
        exact inductionHypothesis _ plainMore tracks

theorem linesOf_append (passed piece : Bytes) :
    linesOf (passed ++ piece) = linesOf passed ++
      (finished lineFeed (unfinished lineFeed passed ++ piece)).map stripReturn := by
  rw [linesOf_eq, linesOf_eq, (finished_unfinished_append passed piece).1, List.map_append]

/-- The parser is where the stream has brought it. -/
structure Follows (p : SseParser) (stream : Bytes) : Prop where
  frame : p.frame = unfinished lineFeed stream
  tracks : Tracks p (linesOf stream)

/-- A call that fits goes on with the stream. -/
theorem advances_feed {p : SseParser} {passed piece : Bytes} (follows : Follows p passed)
    (fits : piece = [] ∨ (unfinished lineFeed passed).length + piece.length ≤ p.maxFrame) :
    ∃ more, linesOf (passed ++ piece) = linesOf passed ++ more ∧
      Advances p (linesOf passed) more (p.feed false piece) ∧
      ((p.feed false piece).2.2 = .ok () → Follows (p.feed false piece).1 (passed ++ piece)) := by
  refine ⟨_, linesOf_append passed piece, ?_⟩
  unfold SseParser.feed
  by_cases nothing : piece = []
  · have plain := separator_notMem_unfinished lineFeed passed
    rw [if_pos nothing, nothing, List.append_nil, List.append_nil, finished_of_notMem plain]
    refine ⟨advances_quiet follows.tracks rfl rfl rfl rfl (by simp) fun isSse => ?_, fun _ =>
      follows⟩
    simpa using follows.tracks.fields isSse
  · have room : ¬ p.maxFrame < p.frame.length + piece.length := by
      have bound := fits.resolve_left nothing
      rw [follows.frame]
      omega
    rw [if_neg nothing, if_neg (by simp), if_neg room, follows.frame]
    obtain ⟨advances, frame⟩ := advances_drain (unfinished lineFeed passed ++ piece) []
      List.not_mem_nil follows.tracks
    rw [List.nil_append] at advances frame
    refine ⟨advances, fun ok => ⟨?_, ?_⟩⟩
    · rw [frame ok, ← (finished_unfinished_append passed piece).2]
    · rw [linesOf_append]
      exact advances.tracks ok

/-- A call that does not fit fails. -/
theorem feed_of_not_fits {p : SseParser} {passed piece : Bytes} (follows : Follows p passed)
    (large : ¬ (piece = [] ∨ (unfinished lineFeed passed).length + piece.length ≤ p.maxFrame)) :
    p.feed false piece = (p, [], .error (.of .eNetOverflow)) := by
  rw [not_or] at large
  rw [SseParser.feed, if_neg large.1, if_neg (by simp), if_pos]
  rw [follows.frame]
  omega

/-! ## Any number of calls -/

/-- Calls after a part of the stream succeed as long as the limits are not reached, and deliver
the events of what they bring. -/
theorem feedAll_follows : ∀ (pieces : List Bytes) {p : SseParser} {passed : Bytes},
    Follows p passed →
      ((p.feedAll pieces).2.2 = .ok () ↔
        FitsFrame p.maxFrame passed pieces ∧
          FitsEvents p.kind p.maxEvents (passed ++ pieces.flatten)) ∧
      ((p.feedAll pieces).2.2 = .ok () →
        reference p.kind (passed ++ pieces.flatten) =
          reference p.kind passed ++ (p.feedAll pieces).2.1) := by
  intro pieces
  induction pieces with
  | nil =>
      intro p passed follows
      have below : FitsEvents p.kind p.maxEvents passed := follows.tracks.below
      simp [SseParser.feedAll, FitsFrame, below]
  | cons piece rest inductionHypothesis =>
      intro p passed follows
      have grouped : passed ++ (piece :: rest).flatten = passed ++ piece ++ rest.flatten := by
        simp
      rw [SseParser.feedAll, FitsFrame, grouped]
      by_cases fits : piece = [] ∨ (unfinished lineFeed passed).length + piece.length ≤ p.maxFrame
      · obtain ⟨more, grown, advances, followed⟩ := advances_feed follows fits
        generalize p.feed false piece = outcome at advances followed ⊢
        obtain ⟨q, events, result⟩ := outcome
        cases result with
        | error e =>
            have failed := advances.ok_iff
            simp only [reduceCtorEq, false_iff] at failed
            have notBelow : ¬ FitsEvents p.kind p.maxEvents (passed ++ piece ++ rest.flatten) := by
              intro below
              rw [FitsEvents, reference, linesOf_append, grown] at below
              exact failed (Below.mono below)
            refine ⟨⟨fun impossible => ?_, fun both => absurd both.2 notBelow⟩,
              fun impossible => ?_⟩
            · cases impossible
            · cases impossible
        | ok done =>
            have kind : q.kind = p.kind := advances.kind
            have maxFrame : q.maxFrame = p.maxFrame := advances.maxFrame
            have maxEvents : q.maxEvents = p.maxEvents := advances.maxEvents
            have delivered := advances.events rfl
            rw [← grown] at delivered
            obtain ⟨okIff, later⟩ := inductionHypothesis (followed rfl)
            rw [kind, maxFrame, maxEvents] at okIff
            rw [kind] at later
            refine ⟨by simpa [fits] using okIff, fun ok => ?_⟩
            rw [later ok, reference, delivered, List.append_assoc]
            rfl
      · rw [feed_of_not_fits follows fits]
        simp [fits]

theorem follows_fresh (kind : StreamKind) (maxFrame maxEvents : Nat) :
    Follows (fresh kind maxFrame maxEvents) [] where
  frame := by simp [fresh]
  tracks := by
    have noEvents : eventsOf kind (linesOf []) = [] := by
      cases kind <;> simp [eventsOf, linesOf]
    refine ⟨fun _ => ?_, ?_, ?_⟩
    · simp only [linesOf, finished_nil, List.map_nil, unfinished_nil]
      exact ⟨rfl, rfl, rfl⟩
    · simp [fresh, noEvents]
    · unfold Below fresh
      rw [noEvents, List.length_nil]
      omega

/-- **However a stream is cut into calls, the parser delivers the events of the stream as long as
no limit is reached; a limit is reached when a call brings more than a frame may hold or the
stream has too many events.** -/
theorem sse_delivers_reference (kind : StreamKind) (maxFrame maxEvents : Nat)
    (pieces : List Bytes) :
    (((fresh kind maxFrame maxEvents).feedAll pieces).2.2 = .ok () ↔
      FitsFrame maxFrame [] pieces ∧ FitsEvents kind maxEvents pieces.flatten) ∧
    (((fresh kind maxFrame maxEvents).feedAll pieces).2.2 = .ok () →
      ((fresh kind maxFrame maxEvents).feedAll pieces).2.1 = reference kind pieces.flatten) := by
  obtain ⟨okIff, delivered⟩ := feedAll_follows pieces (follows_fresh kind maxFrame maxEvents)
  refine ⟨okIff, fun ok => ?_⟩
  have events := delivered ok
  have nothing : reference kind [] = [] := by cases kind <;> simp [reference, eventsOf, linesOf]
  rw [show (fresh kind maxFrame maxEvents).kind = kind from rfl, nothing, List.nil_append,
    List.nil_append] at events
  exact events.symm

/-- Two frames cut inside a line end and inside a name, an open frame at the end. -/
example :
    ((fresh .sse 64 0).feedAll
      [str "id: 1\r", str "\nda", str "ta: a\r\ndata:b\r\n\r\n: c\n\n", str "data: x\n"]).2.1 =
      [⟨str "1", [], str "a\nb"⟩] := by
  decide +kernel

end Opencodepp.Net
