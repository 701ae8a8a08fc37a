import Opencodepp.Library.Positions
import Opencodepp.Verify.Syntax

/-!
# What the scanner finds

A lexer reads the content byte by byte, with one byte of lookahead, and says of each byte what it
belongs to: code, a comment, a literal, an escape in a literal, or a line break that cuts a
literal off.  The faults of the content are then read off the marked bytes with a stack of what is
open, each with all that stands before the place it is reported at.  The scanner reports just
these faults, at the places its own way of counting gives them (`checkSyntax_eq`).  It counts no
line where a literal escapes a line break.
-/

set_option autoImplicit false

namespace Opencodepp.Verify

open Opencodepp.Library
open Opencodepp.Library.Positions

/-! ## The lexer -/

inductive Quote
  | double
  | single
  deriving Repr, DecidableEq

/-- What a byte belongs to. -/
inductive Shade
  | code
  | comment
  | literal
  | escaped
  | broken (quote : Quote)
  deriving Repr, DecidableEq

/-- What the lexer is in, or in the middle of the two bytes of. -/
inductive Mode
  | code
  | opening (block : Bool)
  | line
  | block
  | closing
  | literal (quote : Quote)
  | escape (quote : Quote)
  deriving Repr, DecidableEq

/-- A byte and what it belongs to. -/
abbrev Mark := UInt8 × Shade

def Quote.byte : Quote → UInt8
  | .double => ch '"'
  | .single => ch '\''

/-- One byte, with the byte that follows it. -/
def lexStep (mode : Mode) (c : UInt8) (next : Option UInt8) : Shade × Mode :=
  match mode with
  | .code =>
      if c = ch '/' ∧ next = some (ch '/') then (.comment, .opening false)
      else if c = ch '/' ∧ next = some (ch '*') then (.comment, .opening true)
      else if c = ch '"' then (.literal, .literal .double)
      else if c = ch '\'' then (.literal, .literal .single)
      else (.code, .code)
  | .opening block => (.comment, if block then .block else .line)
  | .line => (.comment, if c = lineFeed then .code else .line)
  | .block => (.comment, if c = ch '*' ∧ next = some (ch '/') then .closing else .block)
  | .closing => (.comment, .code)
  | .literal quote =>
      if c = ch '\\' then (.literal, .escape quote)
      else if c = quote.byte then (.literal, .code)
      else if c = lineFeed then (.broken quote, .code)
      else (.literal, .literal quote)
  | .escape quote => (.escaped, .literal quote)

/-- The bytes with what they belong to, and what is not over when they end. -/
def lex (mode : Mode) : Bytes → List Mark × Mode
  | [] => ([], mode)
  | c :: rest =>
      let (shade, after) := lexStep mode c rest.head?
      ((c, shade) :: (lex after rest).1, (lex after rest).2)

def marks (content : Bytes) : List Mark := (lex .code content).1

def lastMode (content : Bytes) : Mode := (lex .code content).2

/-! ## The faults -/

inductive FaultKind
  | unexpected (closing : UInt8)
  | unmatched (opening closing : UInt8) (closedBehind : List Mark)
  | doubleSemicolon
  | unterminatedLiteral (quote : Quote)
  | unterminatedBlock
  | unclosed (opening : UInt8)
  deriving Repr, DecidableEq

/-- A fault, behind all that stands before the place it is reported at. -/
structure Fault where
  behind : List Mark
  kind : FaultKind
  deriving Repr, DecidableEq

/-- The faults that show at a byte, and what is open behind it: the delimiters with what stands
before them, the last one first. -/
def faultsAt (behind : List Mark) (opened : List (List Mark × UInt8)) (mark : Mark)
    (next : Option UInt8) : List Fault × List (List Mark × UInt8) :=
  match mark.2 with
  | .code =>
      if isOpening mark.1 then ([], (behind, mark.1) :: opened)
      else if isClosing mark.1 then
        match opened with
        | [] => ([⟨behind, .unexpected mark.1⟩], [])
        | (place, opening) :: below =>
            (if isBalancedClose opening mark.1 then []
              else [⟨place, .unmatched opening mark.1 behind⟩], below)
      else if mark.1 = ch ';' ∧ next = some (ch ';') ∧ opened.head?.map (·.2) ≠ some (ch '(') ∧
          behind ≠ [] ∧ behind.getLast?.map (·.1) ≠ some (ch '(') then
        ([⟨behind, .doubleSemicolon⟩], opened)
      else ([], opened)
  | .broken quote => ([⟨behind, .unterminatedLiteral quote⟩], opened)
  | .comment | .literal | .escaped => ([], opened)

/-- The faults that show in marked bytes, and what is left open. -/
def faultsIn (behind : List Mark) (opened : List (List Mark × UInt8)) :
    List Mark → List Fault × List (List Mark × UInt8)
  | [] => ([], opened)
  | mark :: rest =>
      let (now, after) := faultsAt behind opened mark (rest.head?.map (·.1))
      (now ++ (faultsIn (behind ++ [mark]) after rest).1,
        (faultsIn (behind ++ [mark]) after rest).2)

/-- The faults that show when the content is over. -/
def faultsOver (behind : List Mark) : Mode → List Fault
  | .block => [⟨behind, .unterminatedBlock⟩]
  | .literal quote | .escape quote => [⟨behind, .unterminatedLiteral quote⟩]
  | .code | .opening _ | .line | .closing => []

def faults (content : Bytes) : List Fault :=
  (faultsIn [] [] (marks content)).1 ++ faultsOver (marks content) (lastMode content) ++
    (faultsIn [] [] (marks content)).2.reverse.map fun opened =>
      ⟨opened.1, .unclosed opened.2⟩

/-! ## How the scanner counts -/

/-- A line break that counts as one: any but those that are escaped in a literal. -/
def counts (mark : Mark) : Bool := mark.1 == lineFeed && mark.2 != .escaped

def countedLine (behind : List Mark) : UInt32 := UInt32.ofNat (lineAt counts behind)

def countedCol (behind : List Mark) : UInt32 := UInt32.ofNat (columnAt counts behind)

def FaultKind.message : FaultKind → Bytes
  | .unexpected closing => unexpectedClosing closing
  | .unmatched opening closing closedBehind =>
      unmatchedOpening opening closing (countedLine closedBehind) (countedCol closedBehind)
  | .doubleSemicolon => Verify.doubleSemicolon
  | .unterminatedLiteral .double => unterminatedString
  | .unterminatedLiteral .single => unterminatedChar
  | .unterminatedBlock => Verify.unterminatedBlock
  | .unclosed opening => unclosedOpening opening

def Fault.issue (f : Fault) : SyntaxIssue :=
  ⟨(countedLine f.behind).toNat, (countedCol f.behind).toNat, f.kind.message⟩

/-! ## The scanner in step with the lexer -/

theorem countedLine_concat_of_counts {behind : List Mark} {mark : Mark}
    (isBreak : counts mark = true) :
    countedLine (behind ++ [mark]) = countedLine behind + 1 := by
  unfold countedLine
  rw [lineAt_concat, if_pos isBreak, UInt32.ofNat_add]
  rfl

theorem countedCol_concat_of_counts {behind : List Mark} {mark : Mark}
    (isBreak : counts mark = true) : countedCol (behind ++ [mark]) = 1 := by
  unfold countedCol
  rw [columnAt_concat, if_pos isBreak]
  rfl

theorem countedLine_concat {behind : List Mark} {mark : Mark} (within : counts mark = false) :
    countedLine (behind ++ [mark]) = countedLine behind := by
  unfold countedLine
  rw [lineAt_concat, within, if_neg Bool.false_ne_true]

theorem countedCol_concat {behind : List Mark} {mark : Mark} (within : counts mark = false) :
    countedCol (behind ++ [mark]) = countedCol behind + 1 := by
  unfold countedCol
  rw [columnAt_concat, within, if_neg Bool.false_ne_true, UInt32.ofNat_add]
  rfl

theorem counts_of_ne {c : UInt8} (other : c ≠ lineFeed) (shade : Shade) :
    counts (c, shade) = false := by
  simp [counts, other]

theorem counts_escaped (c : UInt8) : counts (c, .escaped) = false := by
  simp [counts]

theorem counts_lineFeed {shade : Shade} (plain : shade ≠ .escaped) :
    counts (lineFeed, shade) = true := by
  simp [counts, plain]

def Quote.charClass : Quote → CharClass
  | .double => .stringLiteral
  | .single => .charLiteral

def Quote.message : Quote → Bytes
  | .double => unterminatedString
  | .single => unterminatedChar

/-- The scanner is in the state that belongs to what the lexer is in; between its rounds it is
never in the middle of two bytes. -/
def InMode (s : Scanner) : Mode → Prop
  | .code => s.state = .normal ∧ s.prevWasBackslash = false
  | .line => s.state = .lineComment ∧ s.prevWasBackslash = false
  | .block => s.state = .blockComment ∧ s.prevWasBackslash = false
  | .literal quote => s.state = quote.charClass ∧ s.prevWasBackslash = false
  | .escape quote => s.state = quote.charClass ∧ s.prevWasBackslash = true
  | .opening _ | .closing => False

def frameOf (opened : List Mark × UInt8) : Frame :=
  ⟨opened.2, countedLine opened.1, countedCol opened.1⟩

/-- What the scanner keeps after the marked bytes. -/
structure Tracks (s : Scanner) (behind : List Mark) (opened : List (List Mark × UInt8))
    (found : List Fault) : Prop where
  line : s.line = countedLine behind
  col : s.col = countedCol behind
  stack : s.stack = opened.map frameOf
  issues : s.issues = found.map Fault.issue
  openings : ∀ o ∈ opened, isOpening o.2 = true

section Steps

variable {s : Scanner} {behind : List Mark} {opened : List (List Mark × UInt8)}
  {found : List Fault} {mark : Mark}

theorem Tracks.advance (tracks : Tracks s behind opened found) (within : counts mark = false) :
    Tracks s.advance (behind ++ [mark]) opened found where
  line := tracks.line.trans (countedLine_concat within).symm
  col := by
    rw [countedCol_concat within, ← tracks.col]
    rfl
  stack := tracks.stack
  issues := tracks.issues
  openings := tracks.openings

theorem Tracks.newline (tracks : Tracks s behind opened found) (isBreak : counts mark = true) :
    Tracks s.newline (behind ++ [mark]) opened found where
  line := by
    rw [countedLine_concat_of_counts isBreak, ← tracks.line]
    rfl
  col := (countedCol_concat_of_counts isBreak).symm
  stack := tracks.stack
  issues := tracks.issues
  openings := tracks.openings

theorem Tracks.enter (tracks : Tracks s behind opened found) (state : CharClass) :
    Tracks (s.enter state) behind opened found :=
  ⟨tracks.line, tracks.col, tracks.stack, tracks.issues, tracks.openings⟩

theorem Tracks.backslash (tracks : Tracks s behind opened found) (flag : Bool) :
    Tracks { s with prevWasBackslash := flag } behind opened found :=
  ⟨tracks.line, tracks.col, tracks.stack, tracks.issues, tracks.openings⟩

/-- A fault is added with the place it is reported at. -/
theorem Tracks.addIssue (tracks : Tracks s behind opened found) (place : List Mark)
    (kind : FaultKind) :
    Tracks (s.addIssue (countedLine place) (countedCol place) kind.message) behind opened
      (found ++ [⟨place, kind⟩]) where
  line := tracks.line
  col := tracks.col
  stack := tracks.stack
  issues := by
    rw [List.map_append, ← tracks.issues]
    rfl
  openings := tracks.openings

/-- A fault at the byte the scanner is at. -/
theorem Tracks.addIssueHere (tracks : Tracks s behind opened found) (kind : FaultKind) :
    Tracks (s.addIssue s.line s.col kind.message) behind opened (found ++ [⟨behind, kind⟩]) := by
  have added := tracks.addIssue behind kind
  rw [← tracks.line, ← tracks.col] at added
  exact added

theorem Tracks.push (tracks : Tracks s behind opened found) {c : UInt8}
    (isOpen : isOpening c = true) :
    Tracks { s with stack := ⟨c, s.line, s.col⟩ :: s.stack } behind ((behind, c) :: opened)
      found where
  line := tracks.line
  col := tracks.col
  stack := by
    rw [List.map_cons, ← tracks.stack, tracks.line, tracks.col]
    rfl
  issues := tracks.issues
  openings := List.forall_mem_cons.mpr ⟨isOpen, tracks.openings⟩

/-- A closing delimiter, with what it does to the stack. -/
theorem Tracks.close (tracks : Tracks s behind opened found) {c : UInt8}
    (notOpening : isOpening c = false) (isClose : isClosing c = true) (next : Option UInt8) :
    Tracks (s.close c) behind (faultsAt behind opened (c, .code) next).2
      (found ++ (faultsAt behind opened (c, .code) next).1) := by
  have stackEq := tracks.stack
  unfold faultsAt Scanner.close
  dsimp only
  rw [notOpening, isClose, if_neg Bool.false_ne_true, if_pos rfl]
  cases opened with
  | nil =>
      rw [List.map_nil] at stackEq
      rw [stackEq]
      exact tracks.addIssueHere (.unexpected c)
  | cons top below =>
      obtain ⟨place, opening⟩ := top
      rw [List.map_cons] at stackEq
      rw [stackEq]
      have popped {s : Scanner} {found : List Fault}
          (kept : Tracks s behind ((place, opening) :: below) found) :
          Tracks { s with stack := below.map frameOf } behind below found :=
        ⟨kept.line, kept.col, rfl, kept.issues, (List.forall_mem_cons.mp kept.openings).2⟩
      dsimp only [frameOf]
      split
      · rw [List.append_nil]
        exact popped tracks
      · rw [tracks.line, tracks.col]
        exact popped (tracks.addIssue place (.unmatched opening c behind))

/-- Only a parenthesis on top counts as the header of a loop. -/
theorem inForHeader_eq (tracks : Tracks s behind opened found) :
    inForHeader s.stack = true ↔ opened.head?.map (·.2) = some (ch '(') := by
  rw [tracks.stack]
  cases opened with
  | nil => exact ⟨nofun, nofun⟩
  | cons top below =>
      have isOpen := (List.forall_mem_cons.mp tracks.openings).1
      simp only [isOpening, Bool.or_eq_true, beq_iff_eq] at isOpen
      simp only [List.map_cons, frameOf, inForHeader, List.head?_cons, Option.map_some,
        Option.some.injEq]
      by_cases paren : top.2 = ch '('
      · simp [paren]
      · have brace : top.2 = ch '{' ∨ top.2 = ch '[' := by
          obtain (isParen | isBracket) | isBrace := isOpen
          · exact absurd isParen paren
          · exact .inr isBracket
          · exact .inl isBrace
        rw [if_neg paren, if_pos brace]
        simp [paren]

/-- Two bytes are only taken at the start of a comment. -/
theorem normal_one {c : UInt8} {prev next : Option UInt8}
    (noLine : ¬(c = ch '/' ∧ next = some (ch '/')))
    (noBlock : ¬(c = ch '/' ∧ next = some (ch '*'))) : (s.normal prev c next).2 = false := by
  unfold Scanner.normal
  rw [if_neg noLine, if_neg noBlock]
  split_ifs <;> rfl

/-- The scanner at a byte of code. -/
theorem normal_code (tracks : Tracks s behind opened found) (inMode : InMode s .code) {c : UInt8}
    {prev next : Option UInt8} (prevEq : prev = behind.getLast?.map (·.1))
    (noLine : ¬(c = ch '/' ∧ next = some (ch '/')))
    (noBlock : ¬(c = ch '/' ∧ next = some (ch '*'))) (noString : c ≠ ch '"')
    (noChar : c ≠ ch '\'') :
    InMode (s.normal prev c next).1 .code ∧
      Tracks (s.normal prev c next).1 (behind ++ [(c, .code)])
        (faultsAt behind opened (c, .code) next).2
        (found ++ (faultsAt behind opened (c, .code) next).1) := by
  have plain {c : UInt8} (other : c ≠ lineFeed) : counts (c, .code) = false :=
    counts_of_ne other .code
  unfold Scanner.normal
  rw [if_neg noLine, if_neg noBlock, if_neg noString, if_neg noChar]
  cases isOpen : isOpening c with
  | true =>
      have other : c ≠ lineFeed := by
        rintro rfl
        exact absurd isOpen (by decide)
      rw [if_pos rfl]
      unfold faultsAt
      dsimp only
      rw [isOpen, if_pos rfl, List.append_nil]
      exact ⟨inMode, (tracks.push isOpen).advance (plain other)⟩
  | false =>
      rw [if_neg Bool.false_ne_true]
      cases isClose : isClosing c with
      | true =>
          have other : c ≠ lineFeed := by
            rintro rfl
            exact absurd isClose (by decide)
          rw [if_pos rfl]
          refine ⟨?_, (tracks.close isOpen isClose next).advance (plain other)⟩
          unfold Scanner.close
          cases s.stack with
          | nil => exact inMode
          | cons top below =>
              dsimp only
              split <;> exact inMode
      | false =>
          rw [if_neg Bool.false_ne_true]
          unfold faultsAt
          dsimp only
          rw [isOpen, isClose, if_neg Bool.false_ne_true, if_neg Bool.false_ne_true]
          by_cases semicolons : c = ch ';' ∧ next = some (ch ';')
          · have other : c ≠ lineFeed := by
              rw [semicolons.1]
              decide
            have sameTest : (inForHeader s.stack = false ∧ prev.isSome = true ∧
                prev ≠ some (ch '(')) ↔ (opened.head?.map (·.2) ≠ some (ch '(') ∧ behind ≠ [] ∧
                  behind.getLast?.map (·.1) ≠ some (ch '(')) := by
              rw [prevEq, ← Bool.not_eq_true, inForHeader_eq tracks]
              simp
            rw [if_pos semicolons]
            dsimp only
            by_cases reported : inForHeader s.stack = false ∧ prev.isSome = true ∧
                prev ≠ some (ch '(')
            · rw [if_pos reported, if_pos ⟨semicolons.1, semicolons.2, sameTest.mp reported⟩]
              exact ⟨inMode,
                (tracks.addIssueHere .doubleSemicolon).advance (plain other)⟩
            · rw [if_neg reported, if_neg fun all => reported (sameTest.mpr all.2.2),
                List.append_nil]
              exact ⟨inMode, tracks.advance (plain other)⟩
          · have single {more : Prop} : ¬(c = ch ';' ∧ next = some (ch ';') ∧ more) :=
              fun all => semicolons ⟨all.1, all.2.1⟩
            rw [if_neg semicolons, if_neg single, List.append_nil]
            by_cases isBreak : c = lineFeed
            · rw [if_pos isBreak, isBreak]
              exact ⟨inMode, tracks.newline (counts_lineFeed (by decide))⟩
            · rw [if_neg isBreak]
              exact ⟨inMode, tracks.advance (plain isBreak)⟩

/-- The scanner at a byte of a literal, or behind a backslash in it. -/
theorem literal_step (tracks : Tracks s behind opened found) (quote : Quote) {mode : Mode}
    (isLiteral : mode = .literal quote ∨ mode = .escape quote) (inMode : InMode s mode)
    (c : UInt8) (next : Option UInt8) :
    let after := lexStep mode c next
    InMode (Scanner.literal quote.byte quote.message s c) after.2 ∧
      Tracks (Scanner.literal quote.byte quote.message s c) (behind ++ [(c, after.1)])
        (faultsAt behind opened (c, after.1) next).2
        (found ++ (faultsAt behind opened (c, after.1) next).1) := by
  obtain rfl | rfl := isLiteral
  · obtain ⟨state, flag⟩ := inMode
    unfold Scanner.literal lexStep
    rw [flag, if_neg Bool.false_ne_true]
    dsimp only
    by_cases isBackslash : c = ch '\\'
    · rw [if_pos isBackslash, if_pos isBackslash, isBackslash]
      refine ⟨⟨state, rfl⟩, ?_⟩
      unfold faultsAt
      dsimp only
      rw [List.append_nil]
      exact (tracks.backslash true).advance (counts_of_ne (by decide) _)
    · rw [if_neg isBackslash, if_neg isBackslash]
      by_cases isQuote : c = quote.byte
      · rw [if_pos isQuote, if_pos isQuote]
        refine ⟨⟨rfl, flag⟩, ?_⟩
        unfold faultsAt
        dsimp only
        rw [List.append_nil]
        have other : c ≠ lineFeed := by
          rw [isQuote]
          cases quote <;> decide
        exact (tracks.enter .normal).advance (counts_of_ne other _)
      · rw [if_neg isQuote, if_neg isQuote]
        by_cases isBreak : c = lineFeed
        · rw [if_pos isBreak, if_pos isBreak, isBreak]
          refine ⟨⟨rfl, flag⟩, ?_⟩
          unfold faultsAt
          dsimp only
          have messageEq : quote.message = (FaultKind.unterminatedLiteral quote).message := by
            cases quote <;> rfl
          rw [messageEq]
          exact ((tracks.addIssueHere (.unterminatedLiteral quote)).enter .normal).newline
            (counts_lineFeed nofun)
        · rw [if_neg isBreak, if_neg isBreak]
          refine ⟨⟨state, flag⟩, ?_⟩
          unfold faultsAt
          dsimp only
          rw [List.append_nil]
          exact tracks.advance (counts_of_ne isBreak _)
  · obtain ⟨state, flag⟩ := inMode
    unfold Scanner.literal lexStep
    rw [flag, if_pos rfl]
    refine ⟨⟨state, rfl⟩, ?_⟩
    unfold faultsAt
    dsimp only
    rw [List.append_nil]
    exact (tracks.backslash false).advance (counts_escaped c)

/-- **A round over one byte does what the lexer and the stack of open delimiters do.** -/
theorem step_one (tracks : Tracks s behind opened found) {mode : Mode} (inMode : InMode s mode)
    {c : UInt8} {prev next : Option UInt8} (prevEq : prev = behind.getLast?.map (·.1))
    (one : (s.step prev c next).2 = false) :
    InMode (s.step prev c next).1 (lexStep mode c next).2 ∧
      Tracks (s.step prev c next).1 (behind ++ [(c, (lexStep mode c next).1)])
        (faultsAt behind opened (c, (lexStep mode c next).1) next).2
        (found ++ (faultsAt behind opened (c, (lexStep mode c next).1) next).1) := by
  unfold Scanner.step at one ⊢
  cases mode with
  | code =>
      obtain ⟨state, flag⟩ := inMode
      rw [state] at one ⊢
      dsimp only at one ⊢
      unfold lexStep
      dsimp only
      by_cases isLine : c = ch '/' ∧ next = some (ch '/')
      · unfold Scanner.normal at one
        rw [if_pos isLine] at one
        exact nomatch one
      · by_cases isBlock : c = ch '/' ∧ next = some (ch '*')
        · unfold Scanner.normal at one
          rw [if_neg isLine, if_pos isBlock] at one
          exact nomatch one
        · rw [if_neg isLine, if_neg isBlock]
          by_cases isString : c = ch '"'
          · unfold Scanner.normal faultsAt
            rw [if_neg isLine, if_neg isBlock, if_pos isString, if_pos isString, isString]
            dsimp only
            rw [List.append_nil]
            exact ⟨⟨rfl, flag⟩, (tracks.enter .stringLiteral).advance (counts_of_ne (by decide) _)⟩
          · rw [if_neg isString]
            by_cases isChar : c = ch '\''
            · unfold Scanner.normal faultsAt
              rw [if_neg isLine, if_neg isBlock, if_neg isString, if_pos isChar, if_pos isChar,
                isChar]
              dsimp only
              rw [List.append_nil]
              exact ⟨⟨rfl, flag⟩, (tracks.enter .charLiteral).advance (counts_of_ne (by decide) _)⟩
            · rw [if_neg isChar]
              exact normal_code tracks ⟨state, flag⟩ prevEq isLine isBlock isString isChar
  | opening => exact inMode.elim
  | closing => exact inMode.elim
  | line =>
      obtain ⟨state, flag⟩ := inMode
      rw [state]
      dsimp only
      unfold Scanner.lineComment lexStep faultsAt
      dsimp only
      rw [List.append_nil]
      by_cases isBreak : c = lineFeed
      · rw [if_pos isBreak, if_pos isBreak, isBreak]
        exact ⟨⟨rfl, flag⟩, (tracks.enter .normal).newline (counts_lineFeed (by decide))⟩
      · rw [if_neg isBreak, if_neg isBreak]
        exact ⟨⟨state, flag⟩, tracks.advance (counts_of_ne isBreak _)⟩
  | block =>
      obtain ⟨state, flag⟩ := inMode
      rw [state] at one ⊢
      dsimp only at one ⊢
      unfold Scanner.blockComment at one ⊢
      unfold lexStep faultsAt
      dsimp only
      rw [List.append_nil]
      by_cases isEnd : c = ch '*' ∧ next = some (ch '/')
      · rw [if_pos isEnd] at one
        exact nomatch one
      · rw [if_neg isEnd, if_neg isEnd]
        by_cases isBreak : c = lineFeed
        · rw [if_pos isBreak, isBreak]
          exact ⟨⟨state, flag⟩, tracks.newline (counts_lineFeed (by decide))⟩
        · rw [if_neg isBreak]
          exact ⟨⟨state, flag⟩, tracks.advance (counts_of_ne isBreak _)⟩
  | literal quote =>
      have stepped := literal_step tracks quote (.inl rfl) inMode c next
      obtain ⟨state, -⟩ := inMode
      rw [state]
      cases quote <;> exact stepped
  | escape quote =>
      have stepped := literal_step tracks quote (.inr rfl) inMode c next
      obtain ⟨state, -⟩ := inMode
      rw [state]
      cases quote <;> exact stepped

/-- **A round over two bytes begins or ends a comment.** -/
theorem step_two (tracks : Tracks s behind opened found) {mode : Mode} (inMode : InMode s mode)
    {c d : UInt8} {prev : Option UInt8} (two : (s.step prev c (some d)).2 = true)
    (next : Option UInt8) :
    (lexStep mode c (some d)).1 = .comment ∧
      (lexStep (lexStep mode c (some d)).2 d next).1 = .comment ∧
      InMode (s.step prev c (some d)).1 (lexStep (lexStep mode c (some d)).2 d next).2 ∧
      Tracks (s.step prev c (some d)).1 (behind ++ [(c, .comment)] ++ [(d, .comment)]) opened
        found := by
  have twice {c d : UInt8} (state : CharClass) (first : c ≠ lineFeed) (second : d ≠ lineFeed) :
      Tracks (s.enter state).advance.advance (behind ++ [(c, .comment)] ++ [(d, .comment)]) opened
        found :=
    ((tracks.enter state).advance (counts_of_ne first _)).advance (counts_of_ne second _)
  unfold Scanner.step at two ⊢
  cases mode with
  | code =>
      obtain ⟨state, flag⟩ := inMode
      rw [state] at two ⊢
      dsimp only at two ⊢
      by_cases isLine : c = ch '/' ∧ some d = some (ch '/')
      · have first := isLine.1
        have second := Option.some.inj isLine.2
        subst first second
        exact ⟨rfl, rfl, ⟨rfl, flag⟩, twice .lineComment (by decide) (by decide)⟩
      · by_cases isBlock : c = ch '/' ∧ some d = some (ch '*')
        · have first := isBlock.1
          have second := Option.some.inj isBlock.2
          subst first second
          exact ⟨rfl, rfl, ⟨rfl, flag⟩, twice .blockComment (by decide) (by decide)⟩
        · rw [normal_one isLine isBlock] at two
          exact nomatch two
  | opening => exact inMode.elim
  | closing => exact inMode.elim
  | line =>
      obtain ⟨state, -⟩ := inMode
      rw [state] at two
      exact nomatch two
  | block =>
      obtain ⟨state, flag⟩ := inMode
      rw [state] at two ⊢
      dsimp only at two ⊢
      unfold Scanner.blockComment at two
      by_cases isEnd : c = ch '*' ∧ some d = some (ch '/')
      · have first := isEnd.1
        have second := Option.some.inj isEnd.2
        subst first second
        exact ⟨rfl, rfl, ⟨rfl, flag⟩, twice .normal (by decide) (by decide)⟩
      · rw [if_neg isEnd] at two
        split at two <;> exact nomatch two
  | literal quote =>
      obtain ⟨state, -⟩ := inMode
      rw [state] at two
      cases quote <;> exact nomatch two
  | escape quote =>
      obtain ⟨state, -⟩ := inMode
      rw [state] at two
      cases quote <;> exact nomatch two

theorem step_none (prev : Option UInt8) (c : UInt8) : (s.step prev c none).2 = false := by
  unfold Scanner.step
  cases s.state with
  | normal => exact normal_one nofun nofun
  | lineComment => rfl
  | blockComment =>
      dsimp only
      unfold Scanner.blockComment
      have goesOn : ¬(c = ch '*' ∧ none = some (ch '/')) := fun isEnd => nomatch isEnd.2
      rw [if_neg goesOn]
      split <;> rfl
  | stringLiteral => rfl
  | charLiteral => rfl

theorem lex_cons (mode : Mode) (c : UInt8) (rest : Bytes) : lex mode (c :: rest) =
    ((c, (lexStep mode c rest.head?).1) :: (lex (lexStep mode c rest.head?).2 rest).1,
      (lex (lexStep mode c rest.head?).2 rest).2) := rfl

/-- The marks follow the bytes. -/
theorem map_lex (mode : Mode) (content : Bytes) : (lex mode content).1.map (·.1) = content := by
  induction content generalizing mode with
  | nil => rfl
  | cons c rest inductionHypothesis => rw [lex_cons, List.map_cons, inductionHypothesis]

theorem head_lex (mode : Mode) (content : Bytes) :
    (lex mode content).1.head?.map (·.1) = content.head? := by
  cases content <;> rfl

theorem faultsIn_cons (behind : List Mark) (opened : List (List Mark × UInt8)) (mark : Mark)
    (rest : List Mark) : faultsIn behind opened (mark :: rest) =
      ((faultsAt behind opened mark (rest.head?.map (·.1))).1 ++
        (faultsIn (behind ++ [mark])
          (faultsAt behind opened mark (rest.head?.map (·.1))).2 rest).1,
        (faultsIn (behind ++ [mark])
          (faultsAt behind opened mark (rest.head?.map (·.1))).2 rest).2) := rfl

/-- **The loop does what the lexer and the stack of open delimiters do.** -/
theorem loop_tracks (prev : Option UInt8) (content : Bytes) {mode : Mode}
    (tracks : Tracks s behind opened found) (inMode : InMode s mode)
    (prevEq : prev = behind.getLast?.map (·.1)) :
    InMode (s.loop prev content) (lex mode content).2 ∧
      Tracks (s.loop prev content) (behind ++ (lex mode content).1)
        (faultsIn behind opened (lex mode content).1).2
        (found ++ (faultsIn behind opened (lex mode content).1).1) := by
  induction s, prev, content using Scanner.loop.induct generalizing mode behind opened found with
  | case1 s prev =>
      rw [lex, faultsIn, List.append_nil, List.append_nil]
      exact ⟨inMode, tracks⟩
  | case2 s prev c =>
      have stepped := step_one tracks inMode prevEq (step_none prev c)
      rw [lex_cons, faultsIn_cons]
      dsimp only [lex, faultsIn, List.head?_nil, Option.map_none]
      rw [List.append_nil]
      exact stepped
  | case3 s prev c d rest two inductionHypothesis =>
      rw [Scanner.loop, if_pos two]
      obtain ⟨first, second, inModeAfter, tracksAfter⟩ :=
        step_two tracks inMode two rest.head?
      have later := inductionHypothesis tracksAfter inModeAfter (by
        rw [List.getLast?_concat]
        rfl)
      rw [lex_cons, List.head?_cons, lex_cons, first, second, faultsIn_cons, faultsIn_cons]
      rw [List.append_assoc, List.append_assoc] at later
      exact later
  | case4 s prev c d rest one inductionHypothesis =>
      rw [Scanner.loop, if_neg one]
      have stepped := step_one tracks inMode prevEq (Bool.eq_false_iff.mpr one)
      have later := inductionHypothesis stepped.2 stepped.1 (by
        rw [List.getLast?_concat]
        rfl)
      rw [lex_cons, List.head?_cons, faultsIn_cons, head_lex, List.head?_cons]
      rw [List.append_assoc, List.append_assoc] at later
      exact later

end Steps

/-- **The scanner reports the faults of the content, where it counts them to be.** -/
theorem checkSyntax_eq (content file : Bytes) :
    checkSyntax content file = (faults content).map Fault.issue := by
  have started : Tracks Scanner.start [] [] [] := ⟨rfl, rfl, rfl, rfl, nofun⟩
  have inCode : InMode Scanner.start .code := ⟨rfl, rfl⟩
  obtain ⟨inMode, tracks⟩ := loop_tracks none content started inCode rfl
  rw [List.nil_append, List.nil_append] at tracks
  unfold checkSyntax faults
  generalize Scanner.start.loop none content = s at inMode tracks
  change InMode s (lastMode content) at inMode
  change Tracks s (marks content) (faultsIn [] [] (marks content)).2
    (faultsIn [] [] (marks content)).1 at tracks
  have atEnd : s.unfinished = (faultsOver (marks content) (lastMode content)).map Fault.issue := by
    unfold Scanner.unfinished
    rw [tracks.line, tracks.col]
    generalize lastMode content = mode at inMode
    cases mode with
    | code => rw [inMode.1]; rfl
    | line => rw [inMode.1]; rfl
    | block => rw [inMode.1]; rfl
    | opening => exact inMode.elim
    | closing => exact inMode.elim
    | literal quote => rw [inMode.1]; cases quote <;> rfl
    | escape quote => rw [inMode.1]; cases quote <;> rfl
  unfold Scanner.finish
  rw [atEnd, tracks.issues, tracks.stack, List.map_append, List.map_append, ← List.map_reverse,
    List.map_map, List.map_map]
  rfl

end Opencodepp.Verify
