import Opencodepp.Tools.Lines
import Opencodepp.Tools.PatchTrace

/-!
# What a patch leaves alone

A patch replaces blocks of lines.  What it should leave alone are the bytes of every other line,
the carriage return before the newline and a missing newline at the end of the text included.
To say so, the lines are marked with the bytes they had in the text, and the application of the
hunks is followed on marked lines: those that are still marked at the end are the ones outside
every matched block.

The text is taken apart into lines and put together again, and this is where the frame breaks:
a carriage return at the end of a line is dropped and the last line gets a newline.
`patch_frames_iff` says for exactly which texts nothing is lost.
-/

set_option autoImplicit false

namespace Opencodepp.Tools.Patch

open Opencodepp.Core
open Opencodepp.Library

/-- The bytes a line must have in the result: its own, or those of a new line. -/
def MarkedLine.bytes (m : MarkedLine Bytes) : Bytes := m.mark.getD (m.line ++ [newline])

/-- The lines of a text with their bytes. -/
def markedLines (text : Bytes) : List (MarkedLine Bytes) :=
  List.zipWith (fun line raw => ⟨line, some raw⟩) (splitLines text) (rawLines text)

/-- The text with the hunks applied is made of the lines outside the matched blocks, byte by
byte, and the new lines. -/
def Frames (text : Bytes) : Prop :=
  ∀ hunks out, apply hunks text = .ok out →
    ∃ placements marked, followHunks hunks (markedLines text) = some (placements, marked) ∧
      out = marked.flatMap MarkedLine.bytes

theorem markedLines_line (text : Bytes) :
    (markedLines text).map MarkedLine.line = splitLines text := by
  have sizes : (splitLines text).length ≤ (rawLines text).length := by
    rw [length_rawLines, splitLines, List.length_map]
  have fst := List.map_fst_zip sizes
  rw [List.zip, List.map_zipWith] at fst
  rw [markedLines, List.map_zipWith]
  exact fst

/-- The marks of a text are its bytes. -/
theorem markedLines_bytes (text : Bytes) : (markedLines text).flatMap MarkedLine.bytes = text := by
  have sizes : (rawLines text).length ≤ (splitLines text).length := by
    rw [length_rawLines, splitLines, List.length_map]
  have snd := List.map_snd_zip sizes
  rw [List.zip, List.map_zipWith] at snd
  rw [markedLines, List.flatMap_def, List.map_zipWith]
  calc (List.zipWith (fun _ raw => raw) (splitLines text) (rawLines text)).flatten
      = (rawLines text).flatten := congrArg List.flatten snd
    _ = text := rawLines_flatten text

/-! ## Lines that keep their bytes -/

/-- A marked line whose bytes are the line and a newline. -/
def MarkedLine.Intact (m : MarkedLine Bytes) : Prop := m.bytes = m.line ++ [newline]

theorem followHunk_intact {h : Hunk} {lines marked : List (MarkedLine Bytes)}
    {placement : Placement Bytes} (intact : ∀ m ∈ lines, m.Intact)
    (followed : followHunk h lines = some (placement, marked)) : ∀ m ∈ marked, m.Intact := by
  obtain ⟨-, -, rfl⟩ := followHunk_eq_some followed
  intro m member
  rcases List.mem_append.mp member with inFront | inBack
  · rcases List.mem_append.mp inFront with kept | new
    · exact intact m (List.mem_of_mem_take kept)
    · obtain ⟨line, -, rfl⟩ := List.mem_map.mp new
      rfl
  · exact intact m (List.mem_of_mem_drop inBack)

theorem followHunks_intact {hunks : List Hunk} {lines : List (MarkedLine Bytes)}
    (intact : ∀ m ∈ lines, m.Intact) :
    ∀ {placements : List (Placement Bytes)} {marked : List (MarkedLine Bytes)},
      followHunks hunks lines = some (placements, marked) → ∀ m ∈ marked, m.Intact := by
  induction hunks with
  | nil =>
      intro placements marked followed
      cases followed
      exact intact
  | cons h rest inductionHypothesis =>
      intro placements marked followed
      obtain ⟨placement, later, between, -, followedRest, followedHunk⟩ :=
        followHunks_cons_eq_some followed
      exact followHunk_intact (inductionHypothesis followedRest) followedHunk

/-- Intact lines make up the text of their lines. -/
theorem flatMap_bytes_of_intact {marked : List (MarkedLine Bytes)} (intact : ∀ m ∈ marked, m.Intact) :
    marked.flatMap MarkedLine.bytes = joinLines (marked.map MarkedLine.line) := by
  unfold joinLines
  rw [List.flatMap_map, List.flatMap_def, List.flatMap_def]
  exact congrArg List.flatten (List.map_congr_left intact)

/-! ## Texts that survive -/

/-- Every line ends in a newline, and none in a carriage return before it. -/
def UnixText (text : Bytes) : Prop :=
  endsLine text = true ∧ occursIn [0x0d, newline] text = false

instance (text : Bytes) : Decidable (UnixText text) :=
  inferInstanceAs (Decidable (_ ∧ _))

/-- A carriage return before a newline ends a line. -/
theorem exists_returned_line (after before : Bytes) :
    ∃ line ∈ textLines (before ++ 0x0d :: newline :: after), line.getLast? = some 0x0d := by
  induction before with
  | nil =>
      have different : (0x0d : UInt8) ≠ newline := by decide
      exact ⟨[0x0d], by simp [textLines, different], rfl⟩
  | cons b rest inductionHypothesis =>
      obtain ⟨line, member, returned⟩ := inductionHypothesis
      rw [List.cons_append, textLines]
      split
      · exact ⟨line, List.mem_cons_of_mem _ member, returned⟩
      · cases shape : textLines (rest ++ 0x0d :: newline :: after) with
        | nil => rw [shape] at member; cases member
        | cons first others =>
            rw [shape] at member
            rcases List.mem_cons.mp member with rfl | later
            · refine ⟨b :: line, List.mem_cons_self .., ?_⟩
              rw [List.getLast?_cons, returned]
              rfl
            · exact ⟨line, List.mem_cons_of_mem _ later, returned⟩

/-- A line ends in a carriage return exactly when that byte stands before a newline. -/
theorem occursIn_return_newline_iff {text : Bytes} (ended : endsLine text = true) :
    occursIn [0x0d, newline] text = true ↔
      ∃ line ∈ textLines text, line.getLast? = some 0x0d := by
  constructor
  · intro occurs
    obtain ⟨before, after, shape⟩ := (occursIn_iff _).mp occurs
    rw [shape, List.append_assoc]
    exact exists_returned_line after before
  · rintro ⟨line, member, returned⟩
    obtain ⟨first, last, shape⟩ := List.append_of_mem member
    obtain ⟨front, rfl⟩ := List.getLast?_eq_some_iff.mp returned
    rw [occursIn_iff]
    refine ⟨joinLines first ++ front, joinLines last, ?_⟩
    rw [← joinLines_textLines ended, shape, joinLines_append, joinLines_cons]
    simp

theorem length_dropReturn_le (line : Bytes) : (dropReturn line).length ≤ line.length := by
  unfold dropReturn
  split <;> simp

theorem length_dropReturn_of_returned {line : Bytes} (returned : line.getLast? = some 0x0d) :
    (dropReturn line).length < line.length := by
  obtain ⟨front, rfl⟩ := List.getLast?_eq_some_iff.mp returned
  simp [dropReturn]

theorem length_joinLines_map_dropReturn_le (lines : List Bytes) :
    (joinLines (lines.map dropReturn)).length ≤ (joinLines lines).length := by
  induction lines with
  | nil => exact Nat.le_refl _
  | cons line rest inductionHypothesis =>
      have shorter := length_dropReturn_le line
      simp only [List.map_cons, joinLines_cons, List.length_append, List.length_cons]
      omega

/-- A line that loses its carriage return makes the text shorter. -/
theorem length_joinLines_map_dropReturn_lt {lines : List Bytes} {line : Bytes}
    (member : line ∈ lines) (returned : line.getLast? = some 0x0d) :
    (joinLines (lines.map dropReturn)).length < (joinLines lines).length := by
  obtain ⟨first, last, rfl⟩ := List.append_of_mem member
  have before := length_joinLines_map_dropReturn_le first
  have after := length_joinLines_map_dropReturn_le last
  have shorter := length_dropReturn_of_returned returned
  simp only [List.map_append, List.map_cons, joinLines_append, joinLines_cons,
    List.length_append, List.length_cons]
  omega

/-- The lines of a text without carriage returns before its newlines are plain. -/
theorem isPlainLine_of_unixText {text line : Bytes} (unix : UnixText text)
    (member : line ∈ textLines text) : isPlainLine line = true := by
  refine isPlainLine_iff.mpr ⟨newline_notMem_textLines member, fun returned => ?_⟩
  have occurs := (occursIn_return_newline_iff unix.1).mpr ⟨line, member, returned⟩
  rw [unix.2] at occurs
  cases occurs

theorem splitLines_of_unixText {text : Bytes} (unix : UnixText text) :
    splitLines text = textLines text :=
  map_dropReturn_of_plain fun _ member => isPlainLine_of_unixText unix member

/-- Splitting a text into lines and joining them gives it back exactly when it is a text of
whole lines without carriage returns at their ends. -/
theorem joinLines_splitLines_iff {text : Bytes} :
    joinLines (splitLines text) = text ↔ UnixText text := by
  constructor
  · intro same
    have ended : endsLine text = true := by
      have joined := endsLine_joinLines (splitLines text)
      rwa [same] at joined
    refine ⟨ended, Bool.eq_false_iff.mpr fun occurs => ?_⟩
    obtain ⟨line, member, returned⟩ := (occursIn_return_newline_iff ended).mp occurs
    have shorter := length_joinLines_map_dropReturn_lt member returned
    rw [joinLines_textLines ended] at shorter
    have whole := congrArg List.length same
    unfold splitLines at whole
    omega
  · intro unix
    rw [splitLines_of_unixText unix, joinLines_textLines unix.1]

theorem markedLines_intact {text : Bytes} (unix : UnixText text) :
    ∀ m ∈ markedLines text, m.Intact := by
  unfold markedLines
  rw [splitLines_of_unixText unix, rawLines_of_endsLine unix.1, List.zipWith_map_right,
    List.zipWith_self]
  intro m member
  obtain ⟨line, -, rfl⟩ := List.mem_map.mp member
  rfl

/-- In a text of whole lines without carriage returns every hunk keeps the other lines. -/
theorem frames_of_unixText {text : Bytes} (unix : UnixText text) : Frames text := by
  intro hunks out applied
  have lines := followHunks_lines hunks (markedLines text)
  rw [markedLines_line] at lines
  unfold apply at applied
  rw [← lines] at applied
  cases followed : followHunks hunks (markedLines text) with
  | none => simp [followed] at applied
  | some reached =>
      obtain ⟨placements, marked⟩ := reached
      have intact := followHunks_intact (markedLines_intact unix) followed
      simp only [followed, Option.map_some, Except.ok.injEq] at applied
      exact ⟨placements, marked, rfl, by rw [flatMap_bytes_of_intact intact, applied]⟩

/-- The empty patch alone shows what is lost. -/
theorem joinLines_splitLines_of_frames {text : Bytes} (frames : Frames text) :
    joinLines (splitLines text) = text := by
  obtain ⟨placements, marked, followed, same⟩ := frames [] _ rfl
  cases followed
  rw [same, markedLines_bytes]

/-- **A patch keeps the bytes of the lines it does not match, and no patch at all keeps the text,
exactly for texts of whole lines without carriage returns at their ends.** -/
theorem patch_frames_iff (text : Bytes) :
    (Frames text ↔ UnixText text) ∧ (apply [] text = .ok text ↔ UnixText text) ∧
      (joinLines (splitLines text) = text ↔ UnixText text) := by
  refine ⟨⟨fun frames => ?_, frames_of_unixText⟩, ?_, joinLines_splitLines_iff⟩
  · exact joinLines_splitLines_iff.mp (joinLines_splitLines_of_frames frames)
  · rw [← joinLines_splitLines_iff]
    exact ⟨Except.ok.inj, congrArg Except.ok⟩

/-- A line with a carriage return and a last line without a newline are both rewritten. -/
theorem patch_frames_fails :
    apply [] (str "a\r\nb") = .ok (str "a\nb\n") ∧
      (¬ ∀ text, Frames text) ∧ (¬ ∀ text, apply [] text = .ok text) ∧
      ¬ ∀ text, joinLines (splitLines text) = text := by
  have lost : joinLines (splitLines (str "a\r\nb")) ≠ str "a\r\nb" := by decide +kernel
  refine ⟨by decide +kernel, fun all => ?_, fun all => ?_, fun all => lost (all _)⟩
  · exact lost (joinLines_splitLines_of_frames (all _))
  · exact lost (Except.ok.inj (all (str "a\r\nb")))

end Opencodepp.Tools.Patch
