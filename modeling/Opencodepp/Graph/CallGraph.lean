import Opencodepp.Graph.Index

/-!
# Queries of the call graph

The queries run over all dependencies that are not tombstones.  The callees of a symbol are
names as they stand at the call; its callers are found by the id that a call was resolved to
when its file was parsed.  The context of a change is the symbols of the changed files, each
followed by its callers, as far as the budget goes.
-/

set_option autoImplicit false

namespace Opencodepp.Graph

open Opencodepp.Core
open Opencodepp.Library

/-- Append what is not there yet. -/
def appendUnique {α : Type} [DecidableEq α] (v : List α) (x : α) : List α :=
  if x ∈ v then v else v ++ [x]

/-- What the live dependencies that qualify give, each once. -/
def collect {α : Type} [DecidableEq α] (deps : List Dep) (qualifies : Dep → Bool) (gives : Dep → α) :
    List α :=
  deps.foldl (fun out d =>
    if d.fromFile = [] then out
    else if qualifies d then appendUnique out (gives d)
    else out) []

theorem mem_appendUnique {α : Type} [DecidableEq α] {v : List α} {x y : α} :
    y ∈ appendUnique v x ↔ y ∈ v ∨ y = x := by
  unfold appendUnique
  split
  · rename_i there
    exact ⟨.inl, fun either => either.elim id fun same => same ▸ there⟩
  · simp

theorem mem_collect {α : Type} [DecidableEq α] {deps : List Dep} {qualifies : Dep → Bool}
    {gives : Dep → α} {x : α} :
    x ∈ collect deps qualifies gives ↔
      ∃ d ∈ deps, d.fromFile ≠ [] ∧ qualifies d = true ∧ gives d = x := by
  have general : ∀ (deps : List Dep) (out : List α),
      x ∈ deps.foldl (fun out d =>
        if d.fromFile = [] then out
        else if qualifies d then appendUnique out (gives d)
        else out) out ↔
          x ∈ out ∨ ∃ d ∈ deps, d.fromFile ≠ [] ∧ qualifies d = true ∧ gives d = x := by
    intro deps
    induction deps with
    | nil => simp
    | cons d rest ih =>
        intro out
        rw [List.foldl_cons, ih]
        by_cases dead : d.fromFile = []
        · simp [dead]
        by_cases taken : qualifies d = true
        · simp [dead, taken, mem_appendUnique, or_assoc, @eq_comm _ x (gives d)]
        · simp [dead, taken]
  simpa [collect] using general deps []

namespace SymbolIndex

variable (idx : SymbolIndex)

def callees (id : Nat) : List Bytes :=
  collect idx.deps (fun d => d.fromSym = id && d.kind = .call) (·.toName)

def callersOf (id : Nat) : List Nat :=
  collect idx.deps (fun d => d.toSym = id && d.kind = .call && d.fromSym ≠ 0) (·.fromSym)

def callersOfName (name : Bytes) : List Nat :=
  collect idx.deps (fun d => d.kind = .call && d.fromSym ≠ 0 && d.toName = name) (·.fromSym)

/-- The live symbol with an id. -/
def symById (id : Nat) : Option Sym :=
  if id = 0 then none else idx.syms[id - 1]?.filter (·.id = id)

/-- The choice among the symbols of a name: the first one, until one of the hinted file comes. -/
def preferred (hint : Bytes) (best : Option Sym) (id : Nat) : Option Sym :=
  match idx.symById id with
  | none => best
  | some s => if best = none ∨ (hint ≠ [] ∧ s.file = hint) then some s else best

/-- A symbol by its simple name, else by its qualified name. -/
def lookup (qname hint : Bytes) : Option Sym :=
  let ids := (idx.byName.lookup qname).getD []
  (ids.foldl (idx.preferred hint) none).or
    ((idx.syms.find? fun s => s.id ≠ 0 && s.qual = qname).or
      (idx.syms.find? fun s => s.id ≠ 0 && s.name = qname))

end SymbolIndex

theorem mem_callees {idx : SymbolIndex} {id : Nat} {name : Bytes} :
    name ∈ idx.callees id ↔
      ∃ d ∈ idx.deps, d.fromFile ≠ [] ∧ d.kind = .call ∧ d.fromSym = id ∧ d.toName = name := by
  rw [SymbolIndex.callees, mem_collect]
  simp only [Bool.and_eq_true, decide_eq_true_eq]
  grind

theorem mem_callersOf {idx : SymbolIndex} {id caller : Nat} :
    caller ∈ idx.callersOf id ↔
      caller ≠ 0 ∧
        ∃ d ∈ idx.deps, d.fromFile ≠ [] ∧ d.kind = .call ∧ d.fromSym = caller ∧ d.toSym = id := by
  rw [SymbolIndex.callersOf, mem_collect]
  simp only [Bool.and_eq_true, decide_eq_true_eq]
  grind

theorem mem_callersOfName {idx : SymbolIndex} {name : Bytes} {caller : Nat} :
    caller ∈ idx.callersOfName name ↔
      caller ≠ 0 ∧
        ∃ d ∈ idx.deps, d.fromFile ≠ [] ∧ d.kind = .call ∧ d.fromSym = caller ∧ d.toName = name := by
  rw [SymbolIndex.callersOfName, mem_collect]
  simp only [Bool.and_eq_true, decide_eq_true_eq]
  grind

/-! ## The context of a change -/

structure Snippet where
  sym : Bytes
  file : Bytes
  text : Bytes
  line : UInt32
  truncated : Bool
  deriving Repr, DecidableEq

/-- The start of the line an offset is in. -/
def lineStart (text : Bytes) : Nat → Nat
  | 0 => 0
  | b + 1 => if byteAt text b = newline then b + 1 else lineStart text b

namespace SymbolIndex

variable (idx : SymbolIndex) (read : Bytes → Option Bytes)

/-- The lines of a symbol, up to a cap. -/
def snippet (id maxBytes : Nat) : Option Snippet :=
  match if id = 0 then none else idx.syms[id - 1]?.filter (·.id ≠ 0) with
  | none => none
  | some s =>
      match read s.file with
      | none => none
      | some text =>
          let sym := if s.qual = [] then s.name else s.qual
          let b := lineStart text (min s.start.toNat text.length)
          let e := min s.end_.toNat text.length
          let e := e + ((text.drop e).takeWhile (· ≠ newline)).length
          let cap := if maxBytes ≠ 0 then maxBytes else idx.limits.snippetBytes
          some ⟨sym, s.file, (slice text b e).take cap, s.line, decide (cap < e - b)⟩

/-- Append the snippet of a symbol, cut to what is left of the budget. -/
def pushSnippet (id : Nat) (budget : Nat) (out : List Snippet) : Nat × List Snippet :=
  match idx.snippet read id 0 with
  | none => (budget, out)
  | some sn =>
      if budget < sn.text.length then
        (0, out ++ [{ sn with text := sn.text.take budget, truncated := true }])
      else (budget - sn.text.length, out ++ [sn])

/-- The state of the search for a context. -/
structure Walk where
  budget : Nat
  seen : List Nat
  out : List Snippet
  deriving Repr, DecidableEq

/-- Take a symbol into the context. -/
def visit (id : Nat) (w : Walk) : Walk :=
  let pushed := idx.pushSnippet read id w.budget w.out
  ⟨pushed.1, appendUnique w.seen id, pushed.2⟩

/-- A caller is taken once.  Nothing happens when the budget is used up, which is where the
search ends. -/
def visitCaller (w : Walk) (caller : Nat) : Walk :=
  if w.budget = 0 ∨ caller ∈ w.seen then w else idx.visit read caller w

def visitSym (file : Bytes) (w : Walk) (i : Nat) : Walk :=
  match idx.syms[i]? with
  | none => w
  | some s =>
      if w.budget = 0 ∨ s.id = 0 ∨ s.file ≠ file then w
      else (idx.callersOf s.id).foldl (idx.visitCaller read) (idx.visit read s.id w)

def visitFile (w : Walk) (file : Bytes) : Walk :=
  match idx.files.lookup file with
  | none => w
  | some pf => (List.range' pf.symFirst pf.symCount).foldl (idx.visitSym read file) w

def walk (files : List Bytes) : Walk :=
  files.foldl (idx.visitFile read) ⟨idx.limits.contextTotalBytes, [], []⟩

def contextForChange (files : List Bytes) : List Snippet := (idx.walk read files).out

/-! ## What a context considers -/

/-- The budget only shrinks, and what was seen stays seen. -/
def Grows (w w' : Walk) : Prop := w'.budget ≤ w.budget ∧ w.seen ⊆ w'.seen

theorem Grows.refl (w : Walk) : Grows w w := ⟨Nat.le_refl _, List.Subset.refl _⟩

theorem Grows.trans {a b c : Walk} (first : Grows a b) (second : Grows b c) : Grows a c :=
  ⟨Nat.le_trans second.1 first.1, List.Subset.trans first.2 second.2⟩

variable {idx read}

theorem grows_visit (id : Nat) (w : Walk) : Grows w (idx.visit read id w) := by
  refine ⟨?_, fun _ member => mem_appendUnique.mpr (.inl member)⟩
  unfold visit pushSnippet
  split
  · exact Nat.le_refl _
  · split
    · exact Nat.zero_le _
    · exact Nat.sub_le _ _

theorem mem_seen_visit (id : Nat) (w : Walk) : id ∈ (idx.visit read id w).seen :=
  mem_appendUnique.mpr (.inr rfl)

theorem grows_foldl {α : Type} {f : Walk → α → Walk} (each : ∀ w x, Grows w (f w x)) :
    ∀ (xs : List α) (w : Walk), Grows w (xs.foldl f w) := by
  intro xs
  induction xs with
  | nil => exact Grows.refl
  | cons x rest ih => exact fun w => (each w x).trans (ih _)

/-- A step that sees its item unless the budget is used up sees all of them. -/
theorem seen_foldl {α : Type} {f : Walk → α → Walk} (each : ∀ w x, Grows w (f w x))
    (sees : α → Nat → Prop)
    (seen : ∀ w x id, sees x id → (f w x).budget ≠ 0 → id ∈ (f w x).seen) :
    ∀ (xs : List α) (w : Walk) (x : α) (id : Nat), x ∈ xs → sees x id →
      (xs.foldl f w).budget ≠ 0 → id ∈ (xs.foldl f w).seen := by
  intro xs
  induction xs with
  | nil => simp
  | cons y rest ih =>
      intro w x id member due left
      obtain rfl | later := List.mem_cons.mp member
      · have grown := grows_foldl each rest (f w x)
        refine grown.2 (seen w x id due fun spent => left ?_)
        exact Nat.le_zero.mp (spent ▸ grown.1)
      · exact ih (f w y) x id later due left

theorem grows_visitCaller (w : Walk) (caller : Nat) : Grows w (idx.visitCaller read w caller) := by
  unfold visitCaller
  split
  · exact Grows.refl w
  · exact grows_visit caller w

theorem grows_visitSym (file : Bytes) (w : Walk) (i : Nat) :
    Grows w (idx.visitSym read file w i) := by
  unfold visitSym
  cases idx.syms[i]? with
  | none => exact Grows.refl w
  | some s =>
      dsimp only
      split
      · exact Grows.refl w
      · exact (grows_visit _ w).trans (grows_foldl grows_visitCaller _ _)

theorem seen_visitCaller (w : Walk) (caller id : Nat) (same : caller = id)
    (left : (idx.visitCaller read w caller).budget ≠ 0) :
    id ∈ (idx.visitCaller read w caller).seen := by
  subst same
  unfold visitCaller at left ⊢
  split at left
  · rename_i skipped
    rw [if_pos skipped]
    exact skipped.resolve_left left
  · rename_i taken
    rw [if_neg taken]
    exact mem_seen_visit caller w

/-- The callers of the symbols of a changed file are considered, unless the budget is used
up. -/
theorem seen_of_callersOf {file : Bytes} {pf : ParsedFile} {i : Nat} {s : Sym} {caller : Nat}
    (known : idx.files.lookup file = some pf) (inside : pf.symRange.Has i)
    (found : idx.syms[i]? = some s) (live : s.id ≠ 0) (here : s.file = file)
    (calls : caller ∈ idx.callersOf s.id) (left : (idx.walk read [file]).budget ≠ 0) :
    caller ∈ (idx.walk read [file]).seen := by
  simp only [walk, List.foldl_cons, List.foldl_nil, visitFile, known] at left ⊢
  refine seen_foldl (grows_visitSym file) (fun j id => j = i ∧ id = caller) ?_ _ _ i caller
    ?_ ⟨rfl, rfl⟩ left
  · rintro w _ _ ⟨rfl, rfl⟩ remains
    unfold visitSym at remains ⊢
    simp only [found, live, here, ne_eq, not_true_eq_false, or_false] at remains ⊢
    split at remains
    · rename_i spent
      exact absurd spent remains
    · rename_i going
      rw [if_neg going]
      exact seen_foldl grows_visitCaller (· = ·) seen_visitCaller _ _ _ _ calls rfl remains
  · unfold ParsedFile.symRange Ranges.Range.Has at inside
    exact List.mem_range'_1.mpr inside

end SymbolIndex

end Opencodepp.Graph
