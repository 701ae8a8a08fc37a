import Opencodepp.Core.Error
import Opencodepp.Library.ByteString
import Opencodepp.Tools.Patch

/-!
# The verification gate

A write proposal passes five stages in a fixed order.  A failed stage stops the gate
when it is mandatory; the last stage only informs.  The stage checkers are the
component's collaborators and are kept in a record, so that the gate is defined for
any of them.
-/

set_option autoImplicit false

namespace Opencodepp.Verify

open Opencodepp.Core
open Opencodepp.Library

inductive Stage
  | syntax_
  | symbols
  | impact
  | diff
  | testmap
  deriving Repr, DecidableEq

/-- The outcome of a stage. -/
structure GateResult where
  stage : Stage
  pass : Bool
  err : ErrorCode
  detail : Bytes
  line : Nat
  col : Nat
  file : Bytes
  deriving Repr, DecidableEq

/-- An edit before it is made. -/
structure EditProposal where
  toolName : Bytes
  argsJson : Bytes
  path : Bytes
  beforeContent : Bytes
  afterContent : Bytes
  patchText : Bytes
  deriving Repr, DecidableEq

structure SyntaxIssue where
  line : Nat
  col : Nat
  msg : Bytes
  deriving Repr, DecidableEq

inductive SymbolKind
  | undefinedRef
  | removedDef
  | wrongArity
  deriving Repr, DecidableEq

structure SymbolIssue where
  kind : SymbolKind
  name : Bytes
  file : Bytes
  line : Nat
  deriving Repr, DecidableEq

/-- The checkers behind the stages.  Those that consult the symbol index see the
number of gate runs before theirs, which stands for the index at that moment. -/
structure Checkers where
  checkSyntax : Bytes → Bytes → List SyntaxIssue
  checkSymbols : Nat → EditProposal → List SymbolIssue
  checkImpact : Nat → EditProposal → List Bytes
  checkDiff : EditProposal → List Bytes

/-- The wiring of the gate. -/
structure Context where
  workspaceRoot : Bytes
  mandatorySyntax : Bool
  mandatorySymbols : Bool
  mandatoryImpact : Bool
  mandatoryDiff : Bool
  deriving Repr, DecidableEq

def passed (s : Stage) : GateResult := ⟨s, true, .success, [], 0, 0, []⟩

def failed (s : Stage) (detail file : Bytes) (line col : Nat) : GateResult :=
  ⟨s, false, ⟨.eVerifyFail, 0⟩, detail, line, col, file⟩

def checkSyntaxStage (c : Checkers) (p : EditProposal) : GateResult :=
  match c.checkSyntax p.afterContent p.path with
  | [] => passed .syntax_
  | worst :: _ => failed .syntax_ worst.msg p.path worst.line worst.col

def SymbolKind.text : SymbolKind → Bytes
  | .undefinedRef => str "undefined reference"
  | .removedDef => str "removed definition still referenced"
  | .wrongArity => str "wrong arity"

def checkSymbolsStage (c : Checkers) (runs : Nat) (p : EditProposal) : GateResult :=
  match c.checkSymbols runs p with
  | [] => passed .symbols
  | worst :: _ =>
      failed .symbols (worst.kind.text ++ str " '" ++ worst.name ++ str "'")
        (if worst.file = [] then p.path else worst.file) worst.line 0

def checkImpactStage (c : Checkers) (runs : Nat) (p : EditProposal) : GateResult :=
  match c.checkImpact runs p with
  | [] => passed .impact
  | worst :: _ => failed .impact worst p.path 0 0

def checkDiffStage (c : Checkers) (p : EditProposal) : GateResult :=
  match c.checkDiff p with
  | [] => passed .diff
  | worst :: _ => failed .diff worst p.path 0 0

/-- One stage. -/
def runStage (c : Checkers) (runs : Nat) (p : EditProposal) : Stage → GateResult
  | .syntax_ => checkSyntaxStage c p
  | .symbols => checkSymbolsStage c runs p
  | .impact => checkImpactStage c runs p
  | .diff => checkDiffStage c p
  | .testmap => passed .testmap

/-- Whether the failure of a stage stops the gate. -/
def mandatory (ctx : Context) : Stage → Bool
  | .syntax_ => ctx.mandatorySyntax
  | .symbols => ctx.mandatorySymbols
  | .impact => ctx.mandatoryImpact
  | .diff => ctx.mandatoryDiff
  | .testmap => false

/-- Run the stages in order, up to the first mandatory failure. -/
def runStages (c : Checkers) (runs : Nat) (ctx : Context) (p : EditProposal) :
    List Stage → List GateResult
  | [] => []
  | s :: rest =>
      let r := runStage c runs p s
      if !r.pass && mandatory ctx s then [r] else r :: runStages c runs ctx p rest

def runAll (c : Checkers) (runs : Nat) (ctx : Context) (p : EditProposal) : List GateResult :=
  runStages c runs ctx p [.syntax_, .symbols, .impact, .diff, .testmap]

/-!
## The diff stage

A patch must apply to the content before it and yield the content after it; a write must
change something.  A small file most of whose lines differ is suspected of having been
reformatted.
-/

open Opencodepp.Tools

/-- The lines that differ place by place; a missing line is an empty one. -/
def countChangedLines (a b : Bytes) : Nat :=
  let old := textLines a
  let new := textLines b
  (List.range (max old.length new.length)).countP (fun i => old.getD i [] ≠ new.getD i []) % 2 ^ 32

/-- The complaint about a small file with more than four fifths of its lines changed. -/
def checkMinimal (p : EditProposal) : List Bytes :=
  let afterLines := (textLines p.afterContent).length
  let changed := countChangedLines p.beforeContent p.afterContent
  -- the product with 0.8 is exact enough below twenty lines to be this comparison
  if afterLines < 20 && p.beforeContent ≠ [] && 4 * afterLines < 5 * changed && 2 < afterLines then
    [str "large fraction of lines changed (" ++ decimal changed ++ str "/" ++ decimal afterLines ++
      str ") -- may be unrelated reformatting"]
  else []

/-- What is wrong with the difference a proposal makes. -/
def checkDiff (p : EditProposal) : List Bytes :=
  if p.patchText ≠ [] then
    match Patch.parse p.patchText with
    | .error e => [str "patch parse failed: " ++ str e.ec.message]
    | .ok hunks =>
        match Patch.apply hunks p.beforeContent with
        | .error _ => [str "patch does not apply cleanly (context mismatch)"]
        | .ok applied =>
            if applied ≠ p.afterContent then
              [str "patch applied but result differs from expected after_content"]
            else checkMinimal p
  else if p.afterContent = p.beforeContent then [str "edit produces no change"]
  else checkMinimal p

end Opencodepp.Verify
