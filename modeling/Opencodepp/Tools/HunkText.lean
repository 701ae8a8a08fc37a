import Opencodepp.Tools.Lines

/-!
# The text of a hunk

A hunk is written as a header with the two positions and then its lines, each behind a mark:
a blank for a line of both sides, a minus for one that is removed, a plus for one that is added.
This module says what the parser reads of such a text.  The header is read back, the positions
counted from zero.  Of the lines, those are lost that look like the name of a file: a removed
line that begins with two minus signs and an added line that begins with two plus signs.
-/

set_option autoImplicit false

namespace Opencodepp.Tools.Patch

open Opencodepp.Library

/-! ## Numbers -/

/-- A number that fits in a machine word is read back from its rendering. -/
theorem parseU64_decimal {n : Nat} (fits : n < 2 ^ 64) : parseU64 (decimal n) = some n := by
  have digits : (decimal n).all isDigit = true :=
    List.all_eq_true.mpr fun b member => isDigit_of_mem_decimal member
  unfold parseU64
  rw [if_neg (by simp [decimal_ne_nil, digits]), digitsValue_decimal, if_pos fits]

/-- A byte that is not a digit does not occur in a number. -/
theorem notMem_decimal {b : UInt8} (other : isDigit b = false) (n : Nat) : b ∉ decimal n := by
  intro member
  rw [isDigit_of_mem_decimal member] at other
  cases other

/-! ## Headers -/

/-- The count in a header, if it is written. -/
def countText : Option Nat → Bytes
  | none => []
  | some count => ch ',' :: decimal count

/-- The header of a hunk. -/
def headerLine (oldPosition : Nat) (oldCount : Option Nat) (newPosition : Nat)
    (newCount : Option Nat) (heading : Bytes) : Bytes :=
  str "@@ -" ++ decimal oldPosition ++ countText oldCount ++ str " +" ++ decimal newPosition ++
    countText newCount ++ str " @@" ++ heading

theorem startText_range (mark : UInt8) (position : Nat) (count : Option Nat) :
    startText (mark :: (decimal position ++ countText count)) = decimal position := by
  unfold startText
  rw [List.drop_one, List.tail_cons, List.takeWhile_append_of_pos]
  · cases count with
    | none => simp [countText]
    | some count => simp [countText]
  · intro b member
    have other : b ≠ ch ',' := fun same =>
      notMem_decimal (b := ch ',') (by decide) position (same ▸ member)
    simpa using other

theorem blank_notMem_range (position : Nat) (count : Option Nat) :
    ch ' ' ∉ decimal position ++ countText count := by
  have noDigit : isDigit (ch ' ') = false := by decide
  have notComma : ch ' ' ≠ ch ',' := by decide
  cases count with
  | none => simp [countText, notMem_decimal noDigit]
  | some count => simp [countText, notMem_decimal noDigit, notComma]

theorem tokens_of_notMem {separator : UInt8} {piece : Bytes} (plain : separator ∉ piece)
    (nonempty : piece ≠ []) : tokens separator piece = [piece] := by
  unfold tokens
  rw [List.splitOn_eq_singleton plain]
  simp [nonempty]

/-- The pieces of a header. -/
theorem tokens_headerLine (oldPosition : Nat) (oldCount : Option Nat) (newPosition : Nat)
    (newCount : Option Nat) (heading : Bytes) :
    tokens (ch ' ')
        ((headerLine oldPosition oldCount newPosition newCount heading).drop 2) =
      (ch '-' :: (decimal oldPosition ++ countText oldCount)) ::
        (ch '+' :: (decimal newPosition ++ countText newCount)) ::
          tokens (ch ' ') (str "@@" ++ heading) := by
  have shape : (headerLine oldPosition oldCount newPosition newCount heading).drop 2 =
      [] ++ ch ' ' :: ((ch '-' :: (decimal oldPosition ++ countText oldCount)) ++
        ch ' ' :: ((ch '+' :: (decimal newPosition ++ countText newCount)) ++
          ch ' ' :: (str "@@" ++ heading))) := by
    have first : str "@@ -" = [0x40, 0x40, ch ' ', ch '-'] := by decide
    have second : str " +" = [ch ' ', ch '+'] := by decide
    have third : str " @@" = ch ' ' :: str "@@" := by decide
    simp [headerLine, first, second, third]
  have blankMinus : ch ' ' ≠ ch '-' := by decide
  have blankPlus : ch ' ' ≠ ch '+' := by decide
  rw [shape, tokens_append_separator, tokens_append_separator, tokens_append_separator,
    tokens_nil, tokens_of_notMem (List.not_mem_cons_of_ne_of_not_mem blankMinus
      (blank_notMem_range _ _)) (by simp), tokens_of_notMem
      (List.not_mem_cons_of_ne_of_not_mem blankPlus (blank_notMem_range _ _)) (by simp)]
  rfl

/-- The positions of a header are read back, counted from zero. -/
theorem openHunk_headerLine {oldPosition newPosition : Nat} (lastAdd : Nat)
    (oldCount newCount : Option Nat) (heading : Bytes) (oldFits : oldPosition < 2 ^ 64)
    (newFits : newPosition < 2 ^ 64) :
    openHunk lastAdd (headerLine oldPosition oldCount newPosition newCount heading) =
      ({ Hunk.blank with origStart := oldPosition - 1, newStart := newPosition - 1 },
        newPosition - 1) := by
  unfold openHunk
  rw [tokens_headerLine]
  simp only [parseStart, List.head?_cons, startText_range, parseU64_decimal oldFits,
    parseU64_decimal newFits, if_true, Option.map_some, Option.getD_some]

theorem headerLine_isHeader (oldPosition : Nat) (oldCount : Option Nat) (newPosition : Nat)
    (newCount : Option Nat) (heading : Bytes) :
    (str "@@").isPrefixOf (headerLine oldPosition oldCount newPosition newCount heading) = true := by
  have first : str "@@ -" = str "@@" ++ [ch ' ', ch '-'] := by decide
  rw [List.isPrefixOf_iff_prefix, headerLine, first]
  exact ⟨_, by simp only [List.append_assoc]; rfl⟩

/-! ## Lines -/

/-- A line of a hunk. -/
inductive DiffLine
  | context (line : Bytes)
  | removed (line : Bytes)
  | added (line : Bytes)
  deriving Repr, DecidableEq

namespace DiffLine

/-- The line without its mark. -/
def content : DiffLine → Bytes
  | context line => line
  | removed line => line
  | added line => line

/-- The line behind its mark. -/
def marked : DiffLine → Bytes
  | context line => ch ' ' :: line
  | removed line => ch '-' :: line
  | added line => ch '+' :: line

/-- What the line is of the old side. -/
def old : DiffLine → List Bytes
  | context line => [line]
  | removed line => [line]
  | added _ => []

/-- What the line is of the new side. -/
def new : DiffLine → List Bytes
  | context line => [line]
  | removed _ => []
  | added line => [line]

/-- A line the parser takes for the name of a file. -/
def looksLikeFile : DiffLine → Bool
  | context _ => false
  | removed line => (str "--").isPrefixOf line
  | added line => (str "++").isPrefixOf line

end DiffLine

/-- The old side of the lines of a hunk. -/
def oldSide (lines : List DiffLine) : List Bytes := lines.flatMap DiffLine.old

/-- The new side of the lines of a hunk. -/
def newSide (lines : List DiffLine) : List Bytes := lines.flatMap DiffLine.new

/-- The lines the parser does not pass by. -/
def readable (lines : List DiffLine) : List DiffLine := lines.filter fun l => !l.looksLikeFile

/-- What a line that is read adds to a hunk. -/
def readLine (h : Hunk) : DiffLine → Hunk
  | .context line => h.context line
  | .removed line => h.removed line
  | .added line => h.added line

theorem parseLine_marked (out : List Hunk) (h : Hunk) (lastAdd : Nat) (line : DiffLine) :
    parseLine ⟨out, some h, lastAdd⟩ line.marked =
      ⟨out, some (if line.looksLikeFile then h else readLine h line), lastAdd⟩ := by
  have at_ : str "@@" = [0x40, 0x40] := by decide
  have minus : str "---" = ch '-' :: str "--" := by decide
  have plus : str "+++" = ch '+' :: str "++" := by decide
  have blankAt : (0x40 : UInt8) ≠ ch ' ' := by decide
  have minusAt : (0x40 : UInt8) ≠ ch '-' := by decide
  have plusAt : (0x40 : UInt8) ≠ ch '+' := by decide
  have minusBlank : ch '-' ≠ ch ' ' := by decide
  have plusBlank : ch '+' ≠ ch ' ' := by decide
  have minusPlus : ch '-' ≠ ch '+' := by decide
  cases line with
  | context line =>
      simp [parseLine, DiffLine.marked, DiffLine.looksLikeFile, at_, minus, plus, blankAt,
        minusBlank, plusBlank, bodyLine, readLine]
  | removed line =>
      by_cases file : (str "--").isPrefixOf line = true
      · simp [parseLine, DiffLine.marked, DiffLine.looksLikeFile, at_, minus, minusAt, file]
      · simp [parseLine, DiffLine.marked, DiffLine.looksLikeFile, at_, minus, plus, minusAt, file,
          minusPlus.symm, minusBlank, bodyLine, readLine]
  | added line =>
      by_cases file : (str "++").isPrefixOf line = true
      · simp [parseLine, DiffLine.marked, DiffLine.looksLikeFile, at_, plus, plusAt, file]
      · simp [parseLine, DiffLine.marked, DiffLine.looksLikeFile, at_, minus, plus, plusAt, file,
          minusPlus, plusBlank, minusPlus.symm, bodyLine, readLine]

/-- The lines of a hunk are read into it, but for those that look like the name of a file. -/
theorem parse_marked (out : List Hunk) (lastAdd : Nat) : ∀ (lines : List DiffLine) (h : Hunk),
    (lines.map DiffLine.marked).foldl parseLine ⟨out, some h, lastAdd⟩ =
      ⟨out, some ((readable lines).foldl readLine h), lastAdd⟩ := by
  intro lines
  induction lines with
  | nil => exact fun _ => rfl
  | cons line rest inductionHypothesis =>
      intro h
      rw [List.map_cons, List.foldl_cons, parseLine_marked, inductionHypothesis]
      cases file : line.looksLikeFile with
      | true => simp [readable, file]
      | false => simp [readable, file]

theorem oldBody_readLines : ∀ (lines : List DiffLine) (h : Hunk),
    (lines.foldl readLine h).oldBody = h.oldBody ++ oldSide lines := by
  intro lines
  induction lines with
  | nil =>
      intro h
      simp [oldSide]
  | cons line rest inductionHypothesis =>
      intro h
      rw [List.foldl_cons, inductionHypothesis]
      cases line <;>
        simp [readLine, Hunk.context, Hunk.removed, Hunk.added, oldSide, DiffLine.old]

theorem newBody_readLines : ∀ (lines : List DiffLine) (h : Hunk),
    (lines.foldl readLine h).newBody = h.newBody ++ newSide lines := by
  intro lines
  induction lines with
  | nil =>
      intro h
      simp [newSide]
  | cons line rest inductionHypothesis =>
      intro h
      rw [List.foldl_cons, inductionHypothesis]
      cases line <;>
        simp [readLine, Hunk.context, Hunk.removed, Hunk.added, newSide, DiffLine.new]

theorem starts_readLines : ∀ (lines : List DiffLine) (h : Hunk),
    (lines.foldl readLine h).origStart = h.origStart ∧
      (lines.foldl readLine h).newStart = h.newStart := by
  intro lines
  induction lines with
  | nil => exact fun _ => ⟨rfl, rfl⟩
  | cons line rest inductionHypothesis =>
      intro h
      rw [List.foldl_cons]
      obtain ⟨orig, new⟩ := inductionHypothesis (readLine h line)
      rw [orig, new]
      cases line <;> exact ⟨rfl, rfl⟩

theorem isPlainLine_cons {b : UInt8} {line : Bytes} (notNewline : b ≠ newline)
    (notReturn : b ≠ 0x0d) (plain : isPlainLine line = true) :
    isPlainLine (b :: line) = true := by
  obtain ⟨noNewline, noReturn⟩ := isPlainLine_iff.mp plain
  refine isPlainLine_iff.mpr ⟨List.not_mem_cons_of_ne_of_not_mem notNewline.symm noNewline, ?_⟩
  cases line with
  | nil => simpa using notReturn
  | cons c rest => simpa [List.getLast?_cons_cons] using noReturn

theorem isPlainLine_marked {line : DiffLine} (plain : isPlainLine line.content = true) :
    isPlainLine line.marked = true := by
  cases line with
  | context line => exact isPlainLine_cons (by decide) (by decide) plain
  | removed line => exact isPlainLine_cons (by decide) (by decide) plain
  | added line => exact isPlainLine_cons (by decide) (by decide) plain

/-! ## Whole hunks -/

/-- A hunk as it is written. -/
structure HunkText where
  oldPosition : Nat
  oldCount : Option Nat
  newPosition : Nat
  newCount : Option Nat
  heading : Bytes
  body : List DiffLine
  deriving Repr, DecidableEq

namespace HunkText

/-- The lines of the text. -/
def lines (t : HunkText) : List Bytes :=
  headerLine t.oldPosition t.oldCount t.newPosition t.newCount t.heading ::
    t.body.map DiffLine.marked

/-- The hunk that is read of it. -/
def hunk (t : HunkText) : Hunk :=
  (readable t.body).foldl readLine
    { Hunk.blank with origStart := t.oldPosition - 1, newStart := t.newPosition - 1 }

/-- The positions fit in a machine word and the lines end where they should. -/
structure WellWritten (t : HunkText) : Prop where
  oldFits : t.oldPosition < 2 ^ 64
  newFits : t.newPosition < 2 ^ 64
  heading : isPlainLine t.heading = true
  body : ∀ l ∈ t.body, isPlainLine l.content = true

@[simp] theorem hunk_origStart (t : HunkText) : t.hunk.origStart = t.oldPosition - 1 :=
  (starts_readLines _ _).1

@[simp] theorem hunk_newStart (t : HunkText) : t.hunk.newStart = t.newPosition - 1 :=
  (starts_readLines _ _).2

@[simp] theorem hunk_oldBody (t : HunkText) : t.hunk.oldBody = oldSide (readable t.body) :=
  oldBody_readLines _ _

@[simp] theorem hunk_newBody (t : HunkText) : t.hunk.newBody = newSide (readable t.body) :=
  newBody_readLines _ _

end HunkText

theorem isPlainLine_append {front line : Bytes} (noNewline : newline ∉ front)
    (nonempty : line ≠ []) (plain : isPlainLine line = true) :
    isPlainLine (front ++ line) = true := by
  obtain ⟨noNewlineHere, noReturn⟩ := isPlainLine_iff.mp plain
  refine isPlainLine_iff.mpr ⟨by simp [noNewline, noNewlineHere], ?_⟩
  cases found : line.getLast? with
  | none => exact absurd (List.getLast?_eq_none_iff.mp found) nonempty
  | some last =>
      rw [found] at noReturn
      rw [List.getLast?_append, found]
      exact noReturn

theorem newline_notMem_countText (count : Option Nat) : newline ∉ countText count := by
  have notComma : newline ≠ ch ',' := by decide
  cases count with
  | none => simp [countText]
  | some count => simp [countText, notComma, notMem_decimal (b := newline) (by decide)]

theorem isPlainLine_headerLine (oldPosition : Nat) (oldCount : Option Nat) (newPosition : Nat)
    (newCount : Option Nat) {heading : Bytes} (plain : isPlainLine heading = true) :
    isPlainLine (headerLine oldPosition oldCount newPosition newCount heading) = true := by
  have third : str " @@" = [ch ' ', 0x40] ++ [0x40] := by decide
  have shape : headerLine oldPosition oldCount newPosition newCount heading =
      (str "@@ -" ++ decimal oldPosition ++ countText oldCount ++ str " +" ++
        decimal newPosition ++ countText newCount ++ [ch ' ', 0x40]) ++ 0x40 :: heading := by
    simp [headerLine, third]
  rw [shape]
  refine isPlainLine_append ?_ (by simp) (isPlainLine_cons (by decide) (by decide) plain)
  have first : newline ∉ str "@@ -" := by decide
  have second : newline ∉ str " +" := by decide
  have last : newline ∉ [ch ' ', 0x40] := by decide
  simp only [List.mem_append, not_or]
  exact ⟨⟨⟨⟨⟨⟨first, notMem_decimal (by decide) _⟩, newline_notMem_countText _⟩, second⟩,
    notMem_decimal (by decide) _⟩, newline_notMem_countText _⟩, last⟩

theorem HunkText.WellWritten.plain_lines {t : HunkText} (well : t.WellWritten) :
    ∀ line ∈ t.lines, isPlainLine line = true := by
  intro line member
  rcases List.mem_cons.mp member with rfl | inBody
  · exact isPlainLine_headerLine _ _ _ _ well.heading
  · obtain ⟨l, isLine, rfl⟩ := List.mem_map.mp inBody
    exact isPlainLine_marked (well.body l isLine)

/-- A header closes the hunk before it and opens one, which takes the lines that follow. -/
theorem parse_hunkText {t : HunkText} (well : t.WellWritten) (st : ParseState) :
    t.lines.foldl parseLine st =
      ⟨st.out ++ st.cur.toList, some t.hunk, t.newPosition - 1⟩ := by
  rw [HunkText.lines, List.foldl_cons, parseLine, if_pos (headerLine_isHeader ..)]
  simp only [openHunk_headerLine st.lastAdd _ _ _ well.oldFits well.newFits]
  rw [parse_marked]
  rfl

theorem parse_hunkTexts : ∀ {texts : List HunkText}, (∀ t ∈ texts, t.WellWritten) →
    ∀ st : ParseState,
      ((texts.flatMap HunkText.lines).foldl parseLine st).out ++
          ((texts.flatMap HunkText.lines).foldl parseLine st).cur.toList =
        st.out ++ st.cur.toList ++ texts.map HunkText.hunk := by
  intro texts
  induction texts with
  | nil =>
      intro _ st
      simp
  | cons t texts inductionHypothesis =>
      intro well st
      rw [List.flatMap_cons, List.foldl_append,
        parse_hunkText (well t (List.mem_cons_self ..)),
        inductionHypothesis fun u member => well u (List.mem_cons_of_mem _ member)]
      simp

/-- Lines before the first header are passed by. -/
theorem parse_preamble : ∀ {preamble : List Bytes},
    (∀ line ∈ preamble, (str "@@").isPrefixOf line = false) →
      preamble.foldl parseLine ⟨[], none, 0⟩ = ⟨[], none, 0⟩ := by
  intro preamble
  induction preamble with
  | nil => exact fun _ => rfl
  | cons line rest inductionHypothesis =>
      intro noHeader
      have here := noHeader line (List.mem_cons_self ..)
      have passed : parseLine ⟨[], none, 0⟩ line = ⟨[], none, 0⟩ := by
        unfold parseLine
        rw [if_neg (by simp [here])]
        split <;> rfl
      rw [List.foldl_cons, passed,
        inductionHypothesis fun l member => noHeader l (List.mem_cons_of_mem _ member)]

/-- **The hunks of a patch are read from its text, but for lines that look like the name of a
file.** -/
theorem parseHunks_joinLines (preamble : List Bytes) {texts : List HunkText}
    (plain : ∀ line ∈ preamble, isPlainLine line = true)
    (noHeader : ∀ line ∈ preamble, (str "@@").isPrefixOf line = false)
    (well : ∀ t ∈ texts, t.WellWritten) :
    parseHunks (joinLines (preamble ++ texts.flatMap HunkText.lines)) =
      texts.map HunkText.hunk := by
  have allPlain : ∀ line ∈ preamble ++ texts.flatMap HunkText.lines, isPlainLine line = true := by
    intro line member
    rcases List.mem_append.mp member with inPreamble | inTexts
    · exact plain line inPreamble
    · obtain ⟨t, isText, isLine⟩ := List.mem_flatMap.mp inTexts
      exact (well t isText).plain_lines line isLine
  unfold parseHunks
  simp only [splitLines_joinLines allPlain, List.foldl_append, parse_preamble noHeader]
  simpa using parse_hunkTexts well ⟨[], none, 0⟩

end Opencodepp.Tools.Patch
