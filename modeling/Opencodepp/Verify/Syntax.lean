import Opencodepp.Verify.Gate

/-!
# The syntax stage

The scanner walks once over the content, in one of five states, and keeps the line and column it
has reached and the delimiters that are still open with the places where they were opened.
-/

set_option autoImplicit false

namespace Opencodepp.Verify

open Opencodepp.Library

inductive CharClass
  | normal
  | lineComment
  | blockComment
  | stringLiteral
  | charLiteral
  deriving Repr, DecidableEq

/-- A delimiter that is still open and where it was opened. -/
structure Frame where
  ch : UInt8
  line : UInt32
  col : UInt32
  deriving Repr, DecidableEq

/-- The scanner; the last frame pushed comes first. -/
structure Scanner where
  line : UInt32
  col : UInt32
  state : CharClass
  prevWasBackslash : Bool
  stack : List Frame
  issues : List SyntaxIssue
  deriving Repr, DecidableEq

def lineFeed : UInt8 := ch '\n'

/-! ## Messages -/

def unterminatedString : Bytes := str "unterminated string literal"

def unterminatedChar : Bytes := str "unterminated char literal"

def unterminatedBlock : Bytes := str "unterminated block comment"

def doubleSemicolon : Bytes := str "double semicolon (;;) outside for-loop header"

def unexpectedClosing (closing : UInt8) : Bytes :=
  str "unexpected '" ++ [closing] ++ str "' without opening"

def unmatchedOpening (opening closing : UInt8) (line col : UInt32) : Bytes :=
  str "unmatched '" ++ [opening] ++ str "' closed by '" ++ [closing] ++ str "' at " ++
    decimal line.toNat ++ str ":" ++ decimal col.toNat

def unclosedOpening (opening : UInt8) : Bytes :=
  str "unterminated '" ++ [opening] ++ str "' -- missing closing"

/-! ## One byte -/

def isOpening (c : UInt8) : Bool := c == ch '(' || c == ch '[' || c == ch '{'

def isClosing (c : UInt8) : Bool := c == ch ')' || c == ch ']' || c == ch '}'

def isBalancedClose (opening closing : UInt8) : Bool :=
  opening == ch '(' && closing == ch ')' || opening == ch '[' && closing == ch ']' ||
    opening == ch '{' && closing == ch '}'

namespace Scanner

def addIssue (s : Scanner) (line col : UInt32) (msg : Bytes) : Scanner :=
  { s with issues := s.issues ++ [⟨line.toNat, col.toNat, msg⟩] }

/-- One byte further in the line. -/
def advance (s : Scanner) : Scanner := { s with col := s.col + 1 }

def newline (s : Scanner) : Scanner := { s with line := s.line + 1, col := 1 }

def enter (s : Scanner) (state : CharClass) : Scanner := { s with state := state }

def lineComment (s : Scanner) (c : UInt8) : Scanner :=
  if c = lineFeed then (s.enter .normal).newline else s.advance

def blockComment (s : Scanner) (c : UInt8) (next : Option UInt8) : Scanner × Bool :=
  if c = ch '*' ∧ next = some (ch '/') then ((s.enter .normal).advance.advance, true)
  else if c = lineFeed then (s.newline, false)
  else (s.advance, false)

/-- Inside a literal that the quote ends. -/
def literal (quote : UInt8) (unterminated : Bytes) (s : Scanner) (c : UInt8) : Scanner :=
  if s.prevWasBackslash then { s with prevWasBackslash := false }.advance
  else if c = ch '\\' then { s with prevWasBackslash := true }.advance
  else if c = quote then (s.enter .normal).advance
  else if c = lineFeed then ((s.addIssue s.line s.col unterminated).enter .normal).newline
  else s.advance

def stringLiteral : Scanner → UInt8 → Scanner := literal (ch '"') unterminatedString

def charLiteral : Scanner → UInt8 → Scanner := literal (ch '\'') unterminatedChar

/-- A closing delimiter against the last one that was opened. -/
def close (s : Scanner) (c : UInt8) : Scanner :=
  match s.stack with
  | [] => s.addIssue s.line s.col (unexpectedClosing c)
  | top :: below =>
      let s :=
        if isBalancedClose top.ch c then s
        else s.addIssue top.line top.col (unmatchedOpening top.ch c s.line s.col)
      { s with stack := below }

end Scanner

/-- Whether the innermost delimiter that is open is a parenthesis. -/
def inForHeader : List Frame → Bool
  | [] => false
  | frame :: below =>
      if frame.ch = ch '(' then true
      else if frame.ch = ch '{' ∨ frame.ch = ch '[' then false
      else inForHeader below

namespace Scanner

/-- Outside comments and literals; the second component says that the next byte is skipped. -/
def normal (s : Scanner) (prev : Option UInt8) (c : UInt8) (next : Option UInt8) :
    Scanner × Bool :=
  if c = ch '/' ∧ next = some (ch '/') then ((s.enter .lineComment).advance.advance, true)
  else if c = ch '/' ∧ next = some (ch '*') then ((s.enter .blockComment).advance.advance, true)
  else if c = ch '"' then ((s.enter .stringLiteral).advance, false)
  else if c = ch '\'' then ((s.enter .charLiteral).advance, false)
  else if isOpening c then ({ s with stack := ⟨c, s.line, s.col⟩ :: s.stack }.advance, false)
  else if isClosing c then ((s.close c).advance, false)
  else if c = ch ';' ∧ next = some (ch ';') then
    let s :=
      if inForHeader s.stack = false ∧ prev.isSome ∧ prev ≠ some (ch '(') then
        s.addIssue s.line s.col doubleSemicolon
      else s
    (s.advance, false)
  else if c = lineFeed then (s.newline, false)
  else (s.advance, false)

/-- One round of the loop at a byte, between its neighbours. -/
def step (s : Scanner) (prev : Option UInt8) (c : UInt8) (next : Option UInt8) :
    Scanner × Bool :=
  match s.state with
  | .lineComment => (s.lineComment c, false)
  | .blockComment => s.blockComment c next
  | .stringLiteral => (s.stringLiteral c, false)
  | .charLiteral => (s.charLiteral c, false)
  | .normal => s.normal prev c next

/-- The loop over the rest of the content. -/
def loop (s : Scanner) (prev : Option UInt8) : Bytes → Scanner
  | [] => s
  | [c] => (s.step prev c none).1
  | c :: d :: rest =>
      if (s.step prev c (some d)).2 then (s.step prev c (some d)).1.loop (some d) rest
      else (s.step prev c (some d)).1.loop (some c) (d :: rest)

/-- The comment or literal that is not over when the content is. -/
def unfinished (s : Scanner) : List SyntaxIssue :=
  match s.state with
  | .blockComment => [⟨s.line.toNat, s.col.toNat, unterminatedBlock⟩]
  | .stringLiteral => [⟨s.line.toNat, s.col.toNat, unterminatedString⟩]
  | .charLiteral => [⟨s.line.toNat, s.col.toNat, unterminatedChar⟩]
  | .normal | .lineComment => []

/-- The issues, with those of what is still open when the content ends. -/
def finish (s : Scanner) : List SyntaxIssue :=
  s.issues ++ s.unfinished ++ s.stack.reverse.map fun frame =>
    ⟨frame.line.toNat, frame.col.toNat, unclosedOpening frame.ch⟩

def start : Scanner := ⟨1, 1, .normal, false, [], []⟩

end Scanner

/-- `check_syntax`; the file name is not looked at. -/
def checkSyntax (content _file : Bytes) : List SyntaxIssue := (Scanner.start.loop none content).finish

end Opencodepp.Verify
