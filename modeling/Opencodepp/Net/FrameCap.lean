import Mathlib.Data.List.TakeWhile
import Opencodepp.Net.Sse

/-!
# The cap on a frame

A frame is not to hold more than a number of bytes: its data, its id, its event and the line that
has not ended.  The parser compares that number with the open line and the whole piece of one
call instead.  So a frame of many lines outgrows the cap unseen, and a large piece of small frames
is refused.  `capsFrames_iff` says for which streams and cuts the cap holds as it is meant.
-/

set_option autoImplicit false

namespace Opencodepp.Net

open Opencodepp.Core
open Opencodepp.Library
open SseParser

/-! ## What a frame holds and how long it is -/

/-- The bytes held for one frame. -/
def SseParser.held (p : SseParser) : Nat :=
  p.data.length + p.id.length + p.event.length + p.frame.length

/-- The bytes of the fields in the lines of a frame, each line of data with its end. -/
def fieldBytes (lines : List Bytes) : Nat :=
  ((valuesOf (str "data") lines).map (·.length + 1)).sum + (lastOf (str "id") lines).length +
    (lastOf (str "event") lines).length

/-- The bytes of the frame a stream leaves open: its fields and the line that has not ended. -/
def openBytes : StreamKind → Bytes → Nat
  | .sse, stream =>
      fieldBytes (unfinished [] (linesOf stream)) + (unfinished lineFeed stream).length
  | .jsonl, stream => (unfinished lineFeed stream).length

/-- The bytes of the frames of a stream of events, by its lines: a blank line ends a frame.  The
last frame is open and has the rest of the stream. -/
def frameSizesFrom (rest : Nat) : Nat → List Bytes → List Nat
  | size, [] => [size + rest]
  | size, l :: lines =>
      if stripReturn l = [] then size :: frameSizesFrom rest 0 lines
      else frameSizesFrom rest (size + l.length + 1) lines

/-- The bytes of the frames of a stream, with the ends of their lines. -/
def frameSizes : StreamKind → Bytes → List Nat
  | .sse, stream =>
      frameSizesFrom (unfinished lineFeed stream).length 0 (finished lineFeed stream)
  | .jsonl, stream =>
      (finished lineFeed stream).map (·.length + 1) ++ [(unfinished lineFeed stream).length]

/-- The cap as it is meant: what is held for a frame stays within it as long as no call fails, and
a stream of smaller frames is taken, unless it has too many events. -/
structure CapsFrames (kind : StreamKind) (maxFrame maxEvents : Nat) (pieces : List Bytes) :
    Prop where
  within : ∀ before, before <+: pieces →
    ((fresh kind maxFrame maxEvents).feedAll before).2.2 = .ok () →
      ((fresh kind maxFrame maxEvents).feedAll before).1.held ≤ maxFrame
  admits : (∀ size ∈ frameSizes kind pieces.flatten, size < maxFrame) →
    FitsEvents kind maxEvents pieces.flatten →
      ((fresh kind maxFrame maxEvents).feedAll pieces).2.2 = .ok ()

/-! ## What the parser holds -/

/-- A parser of values holds nothing but its line. -/
def Bare (p : SseParser) : Prop :=
  p.kind = .jsonl ∧ p.data = [] ∧ p.id = [] ∧ p.event = []

theorem bare_line {p : SseParser} (bare : Bare p) (l : Bytes) : Bare (p.line l).1 := by
  obtain ⟨kind, -, id, event⟩ := bare
  simp only [SseParser.line, kind, SseParser.emit]
  split
  · exact ⟨rfl, rfl, id, event⟩
  · next empty => exact ⟨rfl, not_not.mp empty, id, event⟩

theorem bare_drain (rest : Bytes) : ∀ (begun : Bytes) {p : SseParser}, Bare p →
    Bare (p.drain begun rest).1 := by
  induction rest with
  | nil => exact fun _ _ bare => bare
  | cons b rest inductionHypothesis =>
      intro begun p bare
      rw [SseParser.drain]
      split
      · have after := bare_line bare (stripReturn begun)
        generalize p.line (stripReturn begun) = outcome at after ⊢
        obtain ⟨q, events, result⟩ := outcome
        cases result with
        | error e => exact after
        | ok done => exact inductionHypothesis [] after
      · exact inductionHypothesis _ bare

theorem bare_feed {p : SseParser} (bare : Bare p) (piece : Bytes) : Bare (p.feed false piece).1 := by
  unfold SseParser.feed
  split_ifs
  · exact bare
  · exact bare
  · exact bare
  · exact bare_drain _ _ bare

/-- Calls that succeed keep the parser where the stream has brought it. -/
theorem follows_feedAll (pieces : List Bytes) : ∀ {p : SseParser} {passed : Bytes},
    Follows p passed → (p.feedAll pieces).2.2 = .ok () →
      Follows (p.feedAll pieces).1 (passed ++ pieces.flatten) ∧
        (p.feedAll pieces).1.kind = p.kind ∧ (Bare p → Bare (p.feedAll pieces).1) := by
  induction pieces with
  | nil =>
      intro p passed follows _
      rw [List.flatten_nil, List.append_nil]
      exact ⟨follows, rfl, id⟩
  | cons piece rest inductionHypothesis =>
      intro p passed follows ok
      rw [SseParser.feedAll] at ok ⊢
      have bareAfter := fun bare : Bare p => bare_feed bare piece
      by_cases fits : piece = [] ∨ (unfinished lineFeed passed).length + piece.length ≤ p.maxFrame
      · obtain ⟨more, -, advances, followed⟩ := advances_feed follows fits
        generalize p.feed false piece = outcome at advances followed bareAfter ok ⊢
        obtain ⟨q, events, result⟩ := outcome
        cases result with
        | error e => cases ok
        | ok done =>
            obtain ⟨last, kind, bareLast⟩ := inductionHypothesis (followed rfl) ok
            rw [List.append_assoc] at last
            exact ⟨last, kind.trans advances.kind, fun bare => bareLast (bareAfter bare)⟩
      · rw [feed_of_not_fits follows fits] at ok
        cases ok

/-- After calls that succeed the parser holds the open frame of the stream. -/
theorem held_feedAll {kind : StreamKind} {maxFrame maxEvents : Nat} {pieces : List Bytes}
    (ok : ((fresh kind maxFrame maxEvents).feedAll pieces).2.2 = .ok ()) :
    ((fresh kind maxFrame maxEvents).feedAll pieces).1.held = openBytes kind pieces.flatten := by
  obtain ⟨follows, sameKind, bare⟩ :=
    follows_feedAll pieces (follows_fresh kind maxFrame maxEvents) ok
  rw [List.nil_append] at follows
  rw [SseParser.held, follows.frame]
  cases kind with
  | sse =>
      have fields := follows.tracks.fields sameKind
      rw [fields.data, fields.id, fields.event, List.length_flatMap]
      simp only [List.length_append, List.length_singleton]
      rfl
  | jsonl =>
      obtain ⟨-, data, id, event⟩ := bare ⟨rfl, rfl, rfl, rfl⟩
      rw [data, id, event]
      exact Nat.zero_add _

/-! ## What is held and how long the frames are -/

/-- A field is shorter than its line. -/
theorem length_value_lt {l field value : Bytes} (found : fieldOf l = some (field, value)) :
    value.length < l.length := by
  rw [fieldOf_eq] at found
  split at found
  · cases found
  · unfold splitField at found
    split at found
    · next colon =>
        obtain ⟨-, rfl⟩ := Prod.mk.inj (Option.some.inj found)
        have member : ch ':' ∈ l := List.contains_iff_mem.mp colon
        have whole := congrArg List.length
          (List.takeWhile_append_dropWhile (p := fun b => decide (b ≠ ch ':')) (l := l))
        have rest : 0 < (l.dropWhile fun b => decide (b ≠ ch ':')).length := by
          refine List.length_pos_iff.mpr fun none => ?_
          have all := List.dropWhile_eq_nil_iff.mp none (ch ':') member
          simp at all
        rw [List.length_append] at whole
        split <;> simp only [List.length_drop] <;> omega
    · cases found

/-- One more line adds no more to the fields than its own bytes. -/
theorem fieldBytes_concat_le (lines : List Bytes) (l : Bytes) :
    fieldBytes (lines ++ [l]) ≤ fieldBytes lines + l.length := by
  unfold fieldBytes
  cases found : fieldOf l with
  | none =>
      simp only [valuesOf_append, lastOf_append, valuesOf_singleton_of_none _ found]
      simp
  | some pair =>
      obtain ⟨field, value⟩ := pair
      have shorter := length_value_lt found
      have idData : str "id" ≠ str "data" := by decide
      have eventData : str "event" ≠ str "data" := by decide
      have eventId : str "event" ≠ str "id" := by decide
      simp only [valuesOf_append, lastOf_append, valuesOf_singleton_of_some _ found]
      by_cases data : field = str "data"
      · simp [data, idData.symm, eventData.symm]
        omega
      · by_cases id : field = str "id"
        · simp [id, idData, eventId.symm]
          omega
        · by_cases event : field = str "event"
          · simp [event, eventData, eventId]
            omega
          · simp [data, id, event]

theorem length_stripReturn_le (l : Bytes) :
    (stripReturn l).length ≤ l.length ∧ l.length ≤ (stripReturn l).length + 1 := by
  unfold stripReturn
  split
  · rw [List.length_dropLast]
    omega
  · omega

/-- A frame does not lose what it has. -/
theorem exists_frameSizesFrom (rest : Nat) (lines : List Bytes) : ∀ size : Nat,
    ∃ grown ∈ frameSizesFrom rest size lines, size ≤ grown := by
  induction lines with
  | nil => exact fun size => ⟨_, List.mem_cons_self, Nat.le_add_right ..⟩
  | cons l lines inductionHypothesis =>
      intro size
      rw [frameSizesFrom]
      split
      · exact ⟨size, List.mem_cons_self, Nat.le_refl size⟩
      · obtain ⟨grown, member, bound⟩ := inductionHypothesis (size + l.length + 1)
        exact ⟨grown, member, by omega⟩

/-- After some lines, the size of the open frame is at least that of its fields. -/
theorem frameSizesFrom_append (rest : Nat) (lines : List Bytes) :
    ∀ (begun : List Bytes) (size : Nat), [] ∉ begun → fieldBytes begun ≤ size →
      ∃ closed size', (∀ more, frameSizesFrom rest size (lines ++ more) =
          closed ++ frameSizesFrom rest size' more) ∧
        fieldBytes (unfinished [] (begun ++ lines.map stripReturn)) ≤ size' := by
  induction lines with
  | nil =>
      intro begun size plain bound
      refine ⟨[], size, fun _ => rfl, ?_⟩
      rw [List.map_nil, List.append_nil, unfinished_of_notMem plain]
      exact bound
  | cons l lines inductionHypothesis =>
      intro begun size plain bound
      simp only [List.cons_append, frameSizesFrom, List.map_cons]
      by_cases blank : stripReturn l = []
      · obtain ⟨closed, size', shape, fields⟩ :=
          inductionHypothesis [] 0 List.not_mem_nil (Nat.le_refl 0)
        refine ⟨size :: closed, size', fun more => ?_, ?_⟩
        · rw [if_pos blank, shape, List.cons_append]
        · rw [blank, unfinished_append_separator]
          exact fields
      · obtain ⟨closed, size', shape, fields⟩ :=
          inductionHypothesis (begun ++ [stripReturn l]) (size + l.length + 1)
            (by simpa [plain] using fun same => blank same)
            (by
              have grown := fieldBytes_concat_le begun (stripReturn l)
              have stripped := (length_stripReturn_le l).1
              omega)
        refine ⟨closed, size', fun more => ?_, ?_⟩
        · rw [if_neg blank, shape]
        · rw [List.append_assoc, List.singleton_append] at fields
          exact fields

/-- What comes after a part of a stream goes on with its open line: it leaves it open, or ends
it. -/
theorem finished_after_open {line : Bytes} (plain : lineFeed ∉ line) (after : Bytes) :
    (finished lineFeed (line ++ after) = [] ∧ unfinished lineFeed (line ++ after) = line ++ after) ∨
      ∃ front rest, finished lineFeed (line ++ after) = (line ++ front) :: rest := by
  by_cases member : lineFeed ∈ after
  · obtain ⟨front, rest, rfl, plainFront⟩ := List.eq_append_cons_of_mem member
    refine .inr ⟨front, finished lineFeed rest, ?_⟩
    rw [← List.append_assoc, finished_piece (by simp [plain, plainFront])]
  · have none : lineFeed ∉ line ++ after := by simp [plain, member]
    exact .inl ⟨finished_of_notMem none, unfinished_of_notMem none⟩

/-- **What is held for the open frame is held in some frame of the whole stream**, but for the
carriage return of a blank line. -/
theorem openBytes_le (kind : StreamKind) (before after : Bytes) :
    ∃ size ∈ frameSizes kind (before ++ after), openBytes kind before ≤ size + 1 := by
  have plain := separator_notMem_unfinished lineFeed before
  obtain ⟨pieces, rest⟩ :
      finished lineFeed (before ++ after) =
          finished lineFeed before ++ finished lineFeed (unfinished lineFeed before ++ after) ∧
        unfinished lineFeed (before ++ after) =
          unfinished lineFeed (unfinished lineFeed before ++ after) :=
    finished_unfinished_append before after
  have next := finished_after_open plain after
  cases kind with
  | sse =>
      obtain ⟨closed, size, shape, fields⟩ := frameSizesFrom_append
        (unfinished lineFeed (before ++ after)).length (finished lineFeed before) [] 0
        List.not_mem_nil (Nat.le_refl 0)
      rw [frameSizes, pieces, shape]
      change ∃ _, _ ∧ fieldBytes (unfinished [] (linesOf before)) + _ ≤ _
      rw [List.nil_append, ← linesOf_eq] at fields
      obtain ⟨none, all⟩ | ⟨front, more, first⟩ := next
      · refine ⟨_, List.mem_append_right _ (by rw [none]; exact List.mem_cons_self), ?_⟩
        rw [rest, all, List.length_append]
        omega
      · rw [first, frameSizesFrom]
        have bound := (length_stripReturn_le (unfinished lineFeed before ++ front)).2
        rw [List.length_append] at bound
        by_cases blank : stripReturn (unfinished lineFeed before ++ front) = []
        · rw [if_pos blank]
          refine ⟨size, List.mem_append_right _ List.mem_cons_self, ?_⟩
          rw [blank, List.length_nil] at bound
          omega
        · rw [if_neg blank]
          obtain ⟨grown, member, atLeast⟩ := exists_frameSizesFrom
            (unfinished lineFeed (before ++ after)).length more
            (size + (unfinished lineFeed before ++ front).length + 1)
          refine ⟨grown, List.mem_append_right _ member, ?_⟩
          rw [List.length_append] at atLeast
          omega
  | jsonl =>
      rw [frameSizes, pieces, List.map_append]
      change ∃ _, _ ∧ (unfinished lineFeed before).length ≤ _
      obtain ⟨none, all⟩ | ⟨front, more, first⟩ := next
      · refine ⟨_, List.mem_append_right _ List.mem_cons_self, ?_⟩
        rw [rest, all, List.length_append]
        omega
      · refine ⟨(unfinished lineFeed before ++ front).length + 1, ?_, ?_⟩
        · rw [first]
          simp
        · rw [List.length_append]
          omega

/-! ## When the cap holds -/

/-- **The cap holds as it is meant exactly in these cases: when all frames of the stream are
smaller, no call brings more than the cap together with the line that is open; and when one is
not, the fields of the open frame together with its line stay within the cap after every call.** -/
theorem capsFrames_iff (kind : StreamKind) (maxFrame maxEvents : Nat) (pieces : List Bytes) :
    CapsFrames kind maxFrame maxEvents pieces ↔
      if ∀ size ∈ frameSizes kind pieces.flatten, size < maxFrame then
        FitsEvents kind maxEvents pieces.flatten → FitsFrame maxFrame [] pieces
      else
        ∀ before, before <+: pieces → FitsFrame maxFrame [] before →
          FitsEvents kind maxEvents before.flatten → openBytes kind before.flatten ≤ maxFrame := by
  have accepted (calls : List Bytes) :=
    (sse_delivers_reference kind maxFrame maxEvents calls).1
  by_cases small : ∀ size ∈ frameSizes kind pieces.flatten, size < maxFrame
  · rw [if_pos small]
    constructor
    · exact fun caps few => ((accepted pieces).mp (caps.admits small few)).1
    · intro fits
      refine ⟨?_, fun _ few => (accepted pieces).mpr ⟨fits few, few⟩⟩
      rintro before ⟨after, rfl⟩ ok
      rw [List.flatten_append] at small
      obtain ⟨size, member, bound⟩ := openBytes_le kind before.flatten after.flatten
      have below := small size member
      rw [held_feedAll ok]
      omega
  · rw [if_neg small]
    constructor
    · intro caps before isPrefix fits few
      have ok := (accepted before).mpr ⟨fits, few⟩
      rw [← held_feedAll ok]
      exact caps.within before isPrefix ok
    · intro bounded
      refine ⟨fun before isPrefix ok => ?_, fun allSmall => absurd allSmall small⟩
      obtain ⟨fits, few⟩ := (accepted before).mp ok
      rw [held_feedAll ok]
      exact bounded before isPrefix fits few

/-- A frame of six short lines is held beyond a cap of ten bytes, and two frames of eight bytes
in one call are refused. -/
theorem not_capsFrames :
    ¬CapsFrames .sse 10 0 (List.replicate 6 (str "data: a
")) ∧
      ¬CapsFrames .sse 10 0 [str "data: a

data: b

"] := by
  refine ⟨fun caps => ?_, fun caps => ?_⟩
  · have held := caps.within _ (List.prefix_refl _) (by decide +kernel)
    exact absurd held (by decide +kernel)
  · have ok := caps.admits (by decide +kernel) (.inl rfl)
    exact absurd ok (by decide +kernel)

end Opencodepp.Net
