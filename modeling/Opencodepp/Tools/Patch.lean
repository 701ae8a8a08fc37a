import Opencodepp.Tools.Defaults

/-!
# The file.patch tool

A patch is a list of hunks in the unified format.  Hunks are applied from the last to the
first: each replaces the first block of lines, at or after its header's position, that equals
its old lines.  A patch is reversed by writing it again with the two sides exchanged.

The parser refuses nothing: what it does not understand it passes over.
-/

set_option autoImplicit false

namespace Opencodepp.Tools

open Opencodepp.Core
open Opencodepp.Library

/-! ## Lines -/

def newline : UInt8 := 0x0a

/-- The lines of a text without their newlines; a last line need not have one. -/
def textLines : Bytes → List Bytes
  | [] => []
  | b :: rest =>
      if b = newline then [] :: textLines rest
      else
        match textLines rest with
        | [] => [[b]]
        | line :: lines => (b :: line) :: lines

/-- A line without a carriage return at its end. -/
def dropReturn (line : Bytes) : Bytes := if line.getLast? = some 0x0d then line.dropLast else line

def splitLines (text : Bytes) : List Bytes := (textLines text).map dropReturn

def joinLines (lines : List Bytes) : Bytes := lines.flatMap (· ++ [newline])

namespace Patch

/-! ## Parsing -/

/-- A hunk; positions count from zero.  The bodies keep the order of the lines. -/
structure Hunk where
  origStart : Nat
  newStart : Nat
  ctx : List Bytes
  rem : List Bytes
  add : List Bytes
  oldBody : List Bytes
  newBody : List Bytes
  deriving Repr, DecidableEq

def Hunk.blank : Hunk := ⟨0, 0, [], [], [], [], []⟩

/-- The number a text of digits denotes, when it fits in 64 bits. -/
def parseU64 (s : Bytes) : Option Nat :=
  if s = [] || !s.all isDigit then none
  else if digitsValue s < 2 ^ 64 then some (digitsValue s) else none

/-- The start in a header token such as `-12,3`. -/
def startText (token : Bytes) : Bytes := (token.drop 1).takeWhile (· ≠ ch ',')

def parseStart (token : Bytes) : Option Nat :=
  if token.head? = some (ch '-') then (parseU64 (startText token)).map (· - 1) else none

/-- The hunk a header opens.  A start of the new side that cannot be read is the one of the
header before. -/
def openHunk (lastAdd : Nat) (header : Bytes) : Hunk × Nat :=
  match tokens (ch ' ') (header.drop 2) with
  | first :: second :: _ =>
      match parseStart first with
      | none => (.blank, lastAdd)
      | some orig =>
          if second.head? = some (ch '+') then
            let add := ((parseU64 (startText second)).map (· - 1)).getD lastAdd
            ({ Hunk.blank with origStart := orig, newStart := add }, add)
          else ({ Hunk.blank with origStart := orig }, lastAdd)
  | _ => (.blank, lastAdd)

def Hunk.context (h : Hunk) (line : Bytes) : Hunk :=
  { h with
    ctx := h.ctx ++ [line]
    oldBody := h.oldBody ++ [line]
    newBody := h.newBody ++ [line] }

def Hunk.removed (h : Hunk) (line : Bytes) : Hunk :=
  { h with rem := h.rem ++ [line], oldBody := h.oldBody ++ [line] }

def Hunk.added (h : Hunk) (line : Bytes) : Hunk :=
  { h with add := h.add ++ [line], newBody := h.newBody ++ [line] }

/-- The hunks read, the one being read, and the last start of the new side. -/
structure ParseState where
  out : List Hunk
  cur : Option Hunk
  lastAdd : Nat

/-- One line inside a hunk. -/
def bodyLine (h : Hunk) : Bytes → Hunk
  | [] => h
  | b :: line =>
      if b = ch ' ' then h.context line
      else if b = ch '-' then h.removed line
      else if b = ch '+' then h.added line
      else h

def parseLine (st : ParseState) (line : Bytes) : ParseState :=
  if (str "@@").isPrefixOf line then
    let opened := openHunk st.lastAdd line
    ⟨st.out ++ st.cur.toList, some opened.1, opened.2⟩
  else if (str "---").isPrefixOf line || (str "+++").isPrefixOf line then st
  else ⟨st.out, st.cur.map fun h => bodyLine h line, st.lastAdd⟩

def parseHunks (text : Bytes) : List Hunk :=
  let st := (splitLines text).foldl parseLine ⟨[], none, 0⟩
  st.out ++ st.cur.toList

def parse (text : Bytes) : Except Failure (List Hunk) := .ok (parseHunks text)

/-! ## Applying -/

/-- The place of the first block of lines that equals the given one. -/
def findBlock (block : List Bytes) : List Bytes → Option Nat
  | [] => if block.isEmpty then some 0 else none
  | line :: rest =>
      if block.isPrefixOf (line :: rest) then some 0
      else (findBlock block rest).map (· + 1)

/-- One hunk on the lines of a text.  A position past the end stands for the start. -/
def applyHunk (h : Hunk) (lines : List Bytes) : Option (List Bytes) :=
  let searchFrom := if h.origStart < lines.length then h.origStart else 0
  match findBlock h.oldBody (lines.drop searchFrom) with
  | none => none
  | some i =>
      let anchor := searchFrom + i
      some (lines.take anchor ++ h.newBody ++ lines.drop (anchor + h.oldBody.length))

/-- All hunks, the last one first. -/
def applyHunks : List Hunk → List Bytes → Option (List Bytes)
  | [], lines => some lines
  | h :: rest, lines => (applyHunks rest lines).bind (applyHunk h)

def apply (hunks : List Hunk) (original : Bytes) : Except Failure Bytes :=
  match applyHunks hunks (splitLines original) with
  | none => .error (.of .eToolReject)
  | some lines => .ok (joinLines lines)

/-! ## Reversing -/

/-- A line of a patch. -/
def patchLine (mark : Char) (line : Bytes) : Bytes := ch mark :: line ++ [newline]

/-- An old line against the new ones: new lines stand before it until it is met, or is the one
after the next; `continue_` writes what is left of the old side. -/
def emitAgainst (old : Bytes) (continue_ : List Bytes → Bytes) : List Bytes → Bytes
  | [] => patchLine '-' old ++ continue_ []
  | new :: rest =>
      if old = new then patchLine ' ' old ++ continue_ rest
      else if rest.head? = some old then patchLine '-' old ++ continue_ (new :: rest)
      else patchLine '+' new ++ emitAgainst old continue_ rest

/-- The lines of a hunk, the two sides walked in parallel. -/
def emitBody : List Bytes → List Bytes → Bytes
  | [], new => new.flatMap (patchLine '+')
  | old :: rest, new => emitAgainst old (emitBody rest) new

def emitHunk (h : Hunk) : Bytes :=
  str "@@ -" ++ decimal (h.origStart + 1) ++ str " +" ++ decimal (h.newStart + 1) ++ str " @@" ++
    [newline] ++ emitBody h.oldBody h.newBody

/-- A hunk with its sides exchanged. -/
def Hunk.flip (h : Hunk) : Hunk :=
  ⟨h.newStart, h.origStart, h.ctx, h.add, h.rem, h.newBody, h.oldBody⟩

def reverse (patchText : Bytes) : Except Failure Bytes :=
  match parse patchText with
  | .error e => .error e
  | .ok hunks => .ok (hunks.flatMap fun h => emitHunk h.flip)

/-! ## Files -/

/-- Apply a patch to a file; the report of it. -/
def applyFile (path patchText : Bytes) (d : Disk) : Except Failure Bytes × Disk :=
  match readWholeFile path d with
  | (.error e, d) => (.error e, d)
  | (.ok original, d) =>
      match parse patchText with
      | .error e => (.error e, d)
      | .ok hunks =>
          match apply hunks original with
          | .error e => (.error e, d)
          | .ok next =>
              match writeFileAtomic path next d with
              | (.error e, d) => (.error e, d)
              | (.ok _, d) =>
                  (.ok (str "applied " ++ decimal hunks.length ++ str " hunk" ++
                    (if hunks.length ≠ 1 then str "s" else []) ++ str " to " ++ path), d)

end Patch

/-! ## The tool -/

def filePatchId : Bytes := str "file.patch"

def patchError (message : Bytes) : ToolResult := textResult filePatchId .error message

/-- A patch the tool has decided to make. -/
structure PatchPlan where
  target : Bytes
  text : Bytes
  reverse : Bool
  deriving Repr, DecidableEq

/-- What the tool checks before it looks at the patch. -/
def planPatch (base argsJson : Bytes) : Except ToolResult PatchPlan :=
  match readArgs argsJson with
  | .error _ => .error (patchError (str "bad args"))
  | .ok args =>
      match args.findString (str "path"), args.findString (str "patch") with
      | none, _ => .error (patchError (str "missing required arg: path"))
      | some _, none => .error (patchError (str "missing required arg: patch"))
      | some path, some text =>
          match resolveInSandbox base path with
          | none => .error (patchError (str "path escapes the workspace: " ++ path))
          | some abs => .ok ⟨abs, text, (args.findBool (str "reverse")).getD false⟩

/-- The patch in the direction that was asked for. -/
def PatchPlan.directed (plan : PatchPlan) : Except Failure Bytes :=
  if plan.reverse then Patch.reverse plan.text else .ok plan.text

/-- The file.patch tool over a base directory. -/
def filePatchTool (base : Bytes) : Tool where
  spec := filePatchSpec
  run _ inv _ d :=
    match planPatch base inv.argsJson with
    | .error refusal => (refusal, d)
    | .ok plan =>
        match plan.directed with
        | .error _ => (patchError (str "cannot reverse patch"), d)
        | .ok patchText =>
            match Patch.applyFile plan.target patchText d with
            | (.error _, d) =>
                (patchError (str "patch rejected (context mismatch, no changes applied)"), d)
            | (.ok report, d) => (textResult filePatchId .ok report, d)

/-! ## What the tool does to a file -/

/-- The content a path has; what is not a file has none. -/
def contentAt (d : Disk) (path : Bytes) : Bytes :=
  match d.entry path with
  | some (.file content) => content
  | _ => []

theorem contentAt_of_readWholeFile {path content : Bytes} {d d' : Disk}
    (read : readWholeFile path d = (.ok content, d')) : contentAt d path = content := by
  unfold readWholeFile Disk.read at read
  unfold contentAt
  cases found : d.entry path with
  | none => simp [found] at read
  | some node =>
      cases node with
      | dir =>
          cases fate : d.fate <;> simp [found, fate] at read
      | file stored =>
          cases fate : d.fate with
          | none =>
              simp only [found, fate, Prod.mk.injEq, Except.ok.injEq] at read
              exact read.1
          | refuse => simp [found, fate] at read
          | short n => simp [found, fate] at read

/-- What a patch text makes of a content. -/
def Patch.patched (patchText content : Bytes) : Except Failure Bytes :=
  match Patch.parse patchText with
  | .error e => .error e
  | .ok hunks => Patch.apply hunks content

/-- What a plan makes of a content. -/
def PatchPlan.patched (plan : PatchPlan) (content : Bytes) : Except Failure Bytes :=
  match plan.directed with
  | .error e => .error e
  | .ok patchText => Patch.patched patchText content

/-- A file is patched when it can be read, the patch applies to it, and it can be written. -/
theorem Patch.applyFile_ok_iff {path patchText : Bytes} {d : Disk} :
    (∃ report, (Patch.applyFile path patchText d).1 = .ok report) ↔
      ∃ content next, (readWholeFile path d).1 = .ok content ∧
        Patch.patched patchText content = .ok next ∧
        (writeFileAtomic path next (readWholeFile path d).2).1 = .ok () := by
  unfold Patch.applyFile Patch.patched
  cases read : readWholeFile path d with
  | mk outcome d' =>
      cases outcome with
      | error e => simp
      | ok original =>
          cases parsed : Patch.parse patchText with
          | error e => simp
          | ok hunks =>
              cases applied : Patch.apply hunks original with
              | error e => simp [applied]
              | ok next =>
                  cases wrote : writeFileAtomic path next d' with
                  | mk outcome d'' =>
                      cases outcome with
                      | error e => simp [applied, wrote]
                      | ok done => simp [applied, wrote]

end Opencodepp.Tools
