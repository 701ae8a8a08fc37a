import Opencodepp.Graph.Endpoints
import Opencodepp.Verify.Gate

/-!
# Callers of removed definitions

Two checkers of the gate look for definitions that an edit removes: what a line at column zero
starts with counts as a definition, and the symbol index says whether it is called.  The index is
reached through adapters that forward to it.

The impact checker asks for the callers, and then for each of them it looks up the empty name
instead of the caller.  Every symbol of an index has a name, so that lookup always fails and no
caller is ever reported (`checkImpact_eq_nil`, `removal_uncaught`).
-/

set_option autoImplicit false

namespace Opencodepp.Verify

open Opencodepp.Core
open Opencodepp.Library
open Opencodepp.Graph

/-! ## Definitions by their first word -/

def keywords : List Bytes :=
  ["if", "else", "for", "while", "switch", "case", "return", "break", "continue", "goto", "do",
    "struct", "class", "enum", "union", "typedef", "namespace", "using", "import", "package",
    "func", "type", "var", "const", "fn", "pub", "mod", "try", "catch", "throw", "new", "delete",
    "sizeof", "typeof", "nullptr", "true", "false", "void", "char", "int", "float", "double",
    "long", "short", "unsigned", "signed", "auto", "register", "volatile", "constexpr", "static",
    "extern", "inline", "virtual", "override", "final", "template", "typename", "friend",
    "operator", "public", "private", "protected", "internal"].map str

def isKeyword (s : Bytes) : Bool := s ∈ keywords

/-- What a line with a definition does not start with. -/
def skipped (b : UInt8) : Bool :=
  b = ch ' ' || b = ch '\t' || b = ch '/' || b = ch '#' || b = ch '*' || b = 0x5c || b = ch '@'

/-- The identifier that a line starts with; one letter is not enough. -/
def firstIdentifier : Bytes → Option Bytes
  | [] => none
  | b :: rest =>
      let name := if isIdentChar b && !isDigit b then b :: rest.takeWhile isIdentChar else []
      if !skipped b && 1 < name.length then some name else none

/-- The definitions as the impact checker sees them. -/
def defsOfLines (content : Bytes) : List Bytes := (content.splitOn newline).filterMap firstIdentifier

/-- The definitions as the symbol checker sees them. -/
def extractDefs (content : Bytes) : List Bytes := (defsOfLines content).filter fun name => !isKeyword name

/-! ## The checkers -/

/-- A symbol as the adapters report it. -/
structure Located where
  id : Nat
  name : Bytes
  file : Bytes
  line : UInt32
  deriving Repr, DecidableEq

/-- The adapters to the index, as far as there are any.  A lookup that fails says nothing. -/
structure GraphIndex where
  index : Bool
  lookup : Option (Bytes → Bytes → Option Located)
  callersOf : Option (Nat → List Nat)

def checkSymbols (p : EditProposal) (graph : GraphIndex) : List SymbolIssue :=
  match graph.index, graph.lookup with
  | true, some lookup =>
      (extractDefs p.beforeContent).filterMap fun bd =>
        if bd ∈ extractDefs p.afterContent then none
        else
          match lookup bd p.path with
          | none => none
          | some found =>
              let callers := (graph.callersOf.map (· found.id)).getD []
              if found.id ≠ 0 ∧ callers ≠ [] then some ⟨.removedDef, bd, p.path, 0⟩ else none
  | _, _ => []

structure ImpactIssue where
  callerFile : Bytes
  callerName : Bytes
  detail : Bytes
  deriving Repr, DecidableEq

def checkImpact (p : EditProposal) (graph : GraphIndex) : List ImpactIssue :=
  match graph.index, graph.lookup, graph.callersOf with
  | true, some lookup, some callersOf =>
      (defsOfLines p.beforeContent).flatMap fun name =>
        if name ∈ defsOfLines p.afterContent then []
        else
          let id := ((lookup name p.path).map (·.id)).getD 0
          if id = 0 then []
          else
            (callersOf id).filterMap fun callerId =>
              match lookup [] [] with
              | none => none
              | some caller =>
                  if caller.file = [] then none
                  else
                    some ⟨caller.file,
                      if caller.name = [] then str "sym#" ++ decimal callerId else caller.name,
                      str "change removes '" ++ name ++ str "' which is called from " ++ caller.file⟩
  | _, _, _ => []

/-- The checkers of the gate over an index. -/
def overGraph (c : Checkers) (graph : GraphIndex) : Checkers :=
  { c with
    checkSymbols := fun _ p => checkSymbols p graph
    checkImpact := fun _ p => (checkImpact p graph).map (·.detail) }

/-- The adapters call into an index. -/
structure Forwards (graph : GraphIndex) (idx : SymbolIndex) : Prop where
  index : graph.index = true
  lookup : graph.lookup = some fun qname hint =>
    (idx.lookup qname hint).map fun s => ⟨s.id, s.name, s.file, s.line⟩
  callersOf : graph.callersOf = some idx.callersOf

/-! ## What is looked up -/

/-- A live symbol has a name. -/
theorem hasName_of_mem {idx : SymbolIndex} {sources : Bytes → Option Bytes} (sound : Sound idx)
    (linked : Linked idx sources) {s : Sym} (member : s ∈ idx.syms) (live : s.id ≠ 0) : s.HasName := by
  have owns : symOwner s = some s.file := symOwner_eq_some.mpr ⟨live, rfl⟩
  have known := mem_files_of_owned sound.symsOwned s member s.file owns
  obtain ⟨text, syms, deps, base, _, imprint⟩ := linked s.file known
  have mine : s ∈ own symOwner s.file idx.syms := mem_own.mpr ⟨member, owns⟩
  rw [imprint.ownSyms] at mine
  obtain ⟨i, there⟩ := List.mem_iff_getElem?.mp mine
  rw [getElem?_numbered] at there
  obtain ⟨t, found, same⟩ := Option.map_eq_some_iff.mp there
  have named := hasName_of_found imprint.found t
    (List.mem_of_mem_take (List.mem_of_getElem? found))
  rw [← same]
  exact ⟨named.1, named.2⟩

/-- Nothing is found under the empty name. -/
theorem lookup_nil {idx : SymbolIndex} {sources : Bytes → Option Bytes} (sound : Sound idx)
    (linked : Linked idx sources) (hint : Bytes) : idx.lookup [] hint = none := by
  have nameless : ∀ s ∈ idx.syms, s.id ≠ 0 → s.name ≠ [] ∧ s.qual ≠ [] := by
    intro s member live
    obtain ⟨named, same⟩ := hasName_of_mem sound linked member live
    exact ⟨named, same ▸ named⟩
  have noIds : idsOf idx.byName [] = [] := by
    refine List.eq_nil_iff_forall_not_mem.mpr fun id member => ?_
    obtain ⟨s, there, live, _, empty⟩ := (sound.named.leads [] id).mp member
    exact (nameless s there live).1 empty
  unfold SymbolIndex.lookup
  dsimp only
  rw [← idsOf, noIds, List.foldl_nil, Option.none_or, Option.or_eq_none_iff]
  constructor
  · refine List.find?_eq_none.mpr fun s member => ?_
    simpa using fun live => (nameless s member live).2
  · refine List.find?_eq_none.mpr fun s member => ?_
    simpa using fun live => (nameless s member live).1

/-- No caller is ever reported. -/
theorem checkImpact_eq_nil {idx : SymbolIndex} {sources : Bytes → Option Bytes} (sound : Sound idx)
    (linked : Linked idx sources) {graph : GraphIndex} (forwards : Forwards graph idx)
    (p : EditProposal) : checkImpact p graph = [] := by
  unfold checkImpact
  rw [forwards.index, forwards.lookup, forwards.callersOf]
  dsimp only
  rw [lookup_nil sound linked]
  refine List.flatMap_eq_nil_iff.mpr fun name _ => ?_
  simp

/-! ## Removed definitions -/

/-- The callers that an index has of a function: those of its id and those of its name. -/
def recordedCallers (idx : SymbolIndex) (s : Sym) : List Nat :=
  idx.callersOf s.id ++ idx.callersOfName s.name

/-- An edit of an indexed file removes a function that has callers. -/
structure Removal (w : Session) (p : EditProposal) (f : FuncDef) (s : Sym) : Prop where
  indexed : p.path ∈ w.idx.files
  source : w.sources p.path = some p.beforeContent
  found : f ∈ defsOf (detectLang p.path) p.beforeContent
  removed : ∀ g ∈ defsOf (detectLang p.path) p.afterContent, g.name ≠ f.name
  stored : w.idx.symById s.id = some s
  stands : s.StandsFor f
  called : recordedCallers w.idx s ≠ []

/-- The gate catches the removal of a function: the result fails, the symbol checker names the
function, and the impact checker names every caller and its file. -/
structure Caught (c : Checkers) (runs : Nat) (ctx : Context) (idx : SymbolIndex)
    (graph : GraphIndex) (p : EditProposal) (s : Sym) : Prop where
  fails : ∃ r ∈ runAll (overGraph c graph) runs ctx p, r.pass = false
  symbols : ∃ issue ∈ checkSymbols p graph, issue.kind = .removedDef ∧ issue.name = s.name
  impact : ∀ caller ∈ recordedCallers idx s, ∃ t, idx.symById caller = some t ∧
    ∃ issue ∈ checkImpact p graph, issue.callerName = t.name ∧ issue.callerFile = t.file

theorem not_caught {w : Session} (settled : Settled w) {graph : GraphIndex}
    (forwards : Forwards graph w.idx) {s : Sym} (called : recordedCallers w.idx s ≠ []) {c : Checkers}
    {runs : Nat} {ctx : Context} {p : EditProposal} : ¬ Caught c runs ctx w.idx graph p s := by
  intro caught
  obtain ⟨caller, recorded⟩ := List.exists_mem_of_ne_nil _ called
  obtain ⟨_, _, issue, reported, _⟩ := caught.impact caller recorded
  rw [checkImpact_eq_nil settled.sound settled.linked forwards] at reported
  cases reported

/-- **The gate never catches the removal of a called function.** -/
theorem removal_uncaught {limits : IndexLimits} {ops : List Op} {w : Session}
    (ran : sessionRun limits ops = some w) {graph : GraphIndex} (forwards : Forwards graph w.idx)
    {p : EditProposal} {f : FuncDef} {s : Sym} (removal : Removal w p f s) (c : Checkers)
    (runs : Nat) (ctx : Context) : ¬ Caught c runs ctx w.idx graph p s :=
  not_caught (settled_session ran) forwards removal.called

/-- The adapters of an index. -/
def adapters (idx : SymbolIndex) : GraphIndex where
  index := true
  lookup := some fun qname hint => (idx.lookup qname hint).map fun s => ⟨s.id, s.name, s.file, s.line⟩
  callersOf := some idx.callersOf

theorem forwards_adapters (idx : SymbolIndex) : Forwards (adapters idx) idx := ⟨rfl, rfl, rfl⟩

/-- The edit of a file with two functions, of which the second calls the first, that leaves the
second one only. -/
def dropsCallee : EditProposal :=
  ⟨str "file.write", [], str "a.c", str "int f() { }\nint g() { f(); }", str "int g() { f(); }", []⟩

/-- Its callee. -/
def callee : FuncDef := ⟨4, 0, 8, 11, str "f"⟩

theorem exists_removal : ∃ w s, sessionRun {} callerAndStranger = some w ∧
    Removal w dropsCallee callee s := by
  obtain ⟨w, ran, seen⟩ :=
    (Option.any_eq_true (fun w : Session => decide (dropsCallee.path ∈ w.idx.files) &&
      w.sources dropsCallee.path == some dropsCallee.beforeContent &&
      (w.idx.symById 1).any fun s : Sym => decide (s.id = 1) && decide (s.name = callee.name) &&
        decide (s.start = 0) && decide (s.end_ = 11) &&
        decide (recordedCallers w.idx s ≠ [])) _).mp
      (show (sessionRun {} callerAndStranger).any _ = true by decide +kernel)
  simp only [Bool.and_eq_true, beq_iff_eq, decide_eq_true_eq, Option.any_eq_true] at seen
  obtain ⟨⟨indexed, source⟩, s, stored, ⟨⟨⟨id, name⟩, start⟩, end_⟩, called⟩ := seen
  exact ⟨w, s, ran, indexed, source, by decide +kernel, by decide +kernel, id.symm ▸ stored,
    ⟨name, start, end_⟩, called⟩

theorem removal_uncaught_callee : ∃ w s, sessionRun {} callerAndStranger = some w ∧
    Removal w dropsCallee callee s ∧
    ∀ c runs ctx, ¬ Caught c runs ctx w.idx (adapters w.idx) dropsCallee s := by
  obtain ⟨w, s, ran, removal⟩ := exists_removal
  exact ⟨w, s, ran, removal, removal_uncaught ran (forwards_adapters w.idx) removal⟩

theorem removal_caught_fails : ¬ ∀ limits ops w graph p f s c runs ctx,
    sessionRun limits ops = some w → Forwards graph w.idx → Removal w p f s →
    Caught c runs ctx w.idx graph p s := by
  intro claim
  obtain ⟨w, s, ran, removal⟩ := exists_removal
  have silent : Checkers := ⟨fun _ _ => [], fun _ _ => [], fun _ _ => [], fun _ => []⟩
  have caught := claim _ _ w _ _ _ s silent 0 ⟨[], true, true, true, true⟩ ran
    (forwards_adapters w.idx) removal
  exact not_caught (settled_session ran) (forwards_adapters w.idx) removal.called caught

end Opencodepp.Verify
