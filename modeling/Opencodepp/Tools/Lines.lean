import Mathlib.Data.List.Induction
import Opencodepp.Tools.Patch

/-!
# Texts and their lines

What `textLines`, `splitLines` and `joinLines` are to each other.  Lines without newlines are
read back from the text that holds each of them with a newline, and whatever follows is read
after them.  In the other direction a text is the lines it is split into, with the newlines,
exactly when it ends in one; `rawLines` keeps the terminators and loses nothing.
-/

set_option autoImplicit false

namespace Opencodepp.Tools

open Opencodepp.Library

/-! ## From lines to text and back -/

@[simp] theorem joinLines_nil : joinLines [] = [] := rfl

@[simp] theorem joinLines_cons (line : Bytes) (lines : List Bytes) :
    joinLines (line :: lines) = line ++ newline :: joinLines lines := by
  simp [joinLines]

theorem joinLines_append (first second : List Bytes) :
    joinLines (first ++ second) = joinLines first ++ joinLines second := by
  simp [joinLines]

/-- A line and its newline at the start of a text are the first line read. -/
theorem textLines_line_append {line : Bytes} (plain : newline ∉ line) (text : Bytes) :
    textLines (line ++ newline :: text) = line :: textLines text := by
  induction line with
  | nil => simp [textLines]
  | cons b rest inductionHypothesis =>
      have other : b ≠ newline := fun same => plain (same ▸ List.mem_cons_self ..)
      have plainRest : newline ∉ rest := fun member => plain (List.mem_cons_of_mem _ member)
      rw [List.cons_append]
      simp [textLines, other, inductionHypothesis plainRest]

/-- Lines written before a text are read before it. -/
theorem textLines_joinLines_append : ∀ {lines : List Bytes}, (∀ line ∈ lines, newline ∉ line) →
    ∀ text : Bytes, textLines (joinLines lines ++ text) = lines ++ textLines text := by
  intro lines
  induction lines with
  | nil => simp
  | cons line rest inductionHypothesis =>
      intro plain text
      have plainRest := inductionHypothesis fun l member => plain l (List.mem_cons_of_mem _ member)
      rw [joinLines_cons, List.append_assoc, List.cons_append,
        textLines_line_append (plain line (List.mem_cons_self ..)), plainRest text,
        List.cons_append]

/-- A line that the reader leaves as it is. -/
def isPlainLine (line : Bytes) : Bool := !line.contains newline && line.getLast? != some 0x0d

theorem isPlainLine_iff {line : Bytes} :
    isPlainLine line = true ↔ newline ∉ line ∧ line.getLast? ≠ some 0x0d := by
  simp [isPlainLine]

theorem dropReturn_of_plain {line : Bytes} (plain : isPlainLine line = true) :
    dropReturn line = line := by
  simp [dropReturn, (isPlainLine_iff.mp plain).2]

theorem map_dropReturn_of_plain {lines : List Bytes}
    (plain : ∀ line ∈ lines, isPlainLine line = true) : lines.map dropReturn = lines := by
  rw [List.map_congr_left fun line member => dropReturn_of_plain (plain line member)]
  exact List.map_id' lines

/-- Plain lines written before a text are read before it. -/
theorem splitLines_joinLines_append {lines : List Bytes}
    (plain : ∀ line ∈ lines, isPlainLine line = true) (text : Bytes) :
    splitLines (joinLines lines ++ text) = lines ++ splitLines text := by
  unfold splitLines
  rw [textLines_joinLines_append fun line member => (isPlainLine_iff.mp (plain line member)).1,
    List.map_append, map_dropReturn_of_plain plain]

theorem splitLines_joinLines {lines : List Bytes}
    (plain : ∀ line ∈ lines, isPlainLine line = true) : splitLines (joinLines lines) = lines := by
  simpa [splitLines, textLines] using splitLines_joinLines_append plain []

/-! ## From text to lines and back -/

/-- The lines of a text with their newlines; a last line may have none. -/
def rawLines : Bytes → List Bytes
  | [] => []
  | b :: rest =>
      if b = newline then [newline] :: rawLines rest
      else
        match rawLines rest with
        | [] => [[b]]
        | line :: lines => (b :: line) :: lines

/-- The lines with their newlines are the text. -/
theorem rawLines_flatten (text : Bytes) : (rawLines text).flatten = text := by
  induction text with
  | nil => rfl
  | cons b rest inductionHypothesis =>
      rw [rawLines]
      split
      · next same => simp [inductionHypothesis, same]
      · split
        · next none => rw [← inductionHypothesis, none]; rfl
        · next line lines some =>
            rw [some] at inductionHypothesis
            rw [← inductionHypothesis]
            rfl

theorem length_rawLines (text : Bytes) : (rawLines text).length = (textLines text).length := by
  induction text with
  | nil => rfl
  | cons b rest inductionHypothesis =>
      rw [rawLines, textLines]
      split
      · simp [inductionHypothesis]
      · cases raw : rawLines rest with
        | nil =>
            rw [raw] at inductionHypothesis
            have none := List.length_eq_zero_iff.mp inductionHypothesis.symm
            simp [none]
        | cons line lines =>
            cases plain : textLines rest with
            | nil => simp [raw, plain] at inductionHypothesis
            | cons first others => simpa [raw, plain] using inductionHypothesis

/-- A text that has no line without a newline. -/
def endsLine (text : Bytes) : Bool := text.isEmpty || text.getLast? == some newline

theorem endsLine_iff {text : Bytes} :
    endsLine text = true ↔ text = [] ∨ text.getLast? = some newline := by
  simp [endsLine]

theorem textLines_eq_nil_iff {text : Bytes} : textLines text = [] ↔ text = [] := by
  constructor
  · intro none
    have raw := length_rawLines text
    rw [none, List.length_nil, List.length_eq_zero_iff] at raw
    rw [← rawLines_flatten text, raw, List.flatten_nil]
  · rintro rfl
    rfl

theorem rawLines_of_endsLine {text : Bytes} (ended : endsLine text = true) :
    rawLines text = (textLines text).map (· ++ [newline]) := by
  induction text with
  | nil => rfl
  | cons b rest inductionHypothesis =>
      have lastByte : (b :: rest).getLast? = some newline := by
        simpa [endsLine] using ended
      rw [rawLines, textLines]
      by_cases same : b = newline
      · have endedRest : endsLine rest = true := by
          rw [endsLine_iff]
          cases rest with
          | nil => exact .inl rfl
          | cons c others => exact .inr (by simpa [List.getLast?_cons_cons] using lastByte)
        simp [same, inductionHypothesis endedRest]
      · cases rest with
        | nil => exact absurd (by simpa using lastByte) same
        | cons c others =>
            have endedRest : endsLine (c :: others) = true := by
              rw [endsLine_iff]
              exact .inr (by simpa [List.getLast?_cons_cons] using lastByte)
            have raw := inductionHypothesis endedRest
            have some_ : textLines (c :: others) ≠ [] := fun none =>
              absurd (textLines_eq_nil_iff.mp none) (by simp)
            obtain ⟨line, lines, shape⟩ := List.exists_cons_of_ne_nil some_
            rw [shape] at raw
            simp [same, raw, shape]

/-- A text without an unfinished line is its lines, each with a newline. -/
theorem joinLines_textLines {text : Bytes} (ended : endsLine text = true) :
    joinLines (textLines text) = text := by
  have raw := rawLines_flatten text
  rw [rawLines_of_endsLine ended] at raw
  rw [joinLines, List.flatMap_def]
  exact raw

theorem endsLine_joinLines (lines : List Bytes) : endsLine (joinLines lines) = true := by
  rw [endsLine_iff]
  rcases List.eq_nil_or_concat lines with rfl | ⟨front, last, rfl⟩
  · exact .inl rfl
  · right
    rw [List.concat_eq_append, joinLines_append, joinLines_cons, joinLines_nil,
      ← List.append_assoc, List.getLast?_append]
    simp

theorem newline_notMem_textLines {text line : Bytes} (member : line ∈ textLines text) :
    newline ∉ line := by
  induction text generalizing line with
  | nil => cases member
  | cons b rest inductionHypothesis =>
      rw [textLines] at member
      split at member
      · rcases List.mem_cons.mp member with rfl | later
        · exact List.not_mem_nil
        · exact inductionHypothesis later
      · next other =>
          have differs : newline ≠ b := fun same => other same.symm
          split at member
          · rw [List.mem_singleton.mp member]
            simpa using differs
          · next first others shape =>
              rw [shape] at inductionHypothesis
              rcases List.mem_cons.mp member with rfl | later
              · intro inside
                rcases List.mem_cons.mp inside with same | deeper
                · exact differs same
                · exact inductionHypothesis (List.mem_cons_self ..) deeper
              · exact inductionHypothesis (List.mem_cons_of_mem _ later)

end Opencodepp.Tools
