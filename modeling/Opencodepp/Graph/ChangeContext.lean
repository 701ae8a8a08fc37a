import Opencodepp.Graph.CallGraph
import Opencodepp.Graph.Representation
import Opencodepp.Library.Ration

/-!
# The context of a change

The context of changed files are the snippets of their symbols and of those that call them, each
once, within a budget of bytes.  The search skips a caller that was reached before, but not a
symbol at its own turn.  `contextForChange_keeps_iff` says for which files the context is as it is
meant: no symbol has its turn, while budget is left, after it was reached as a caller or by the
same file given before.
-/

set_option autoImplicit false

namespace Opencodepp.Graph

open Opencodepp.Core
open Opencodepp.Library

/-- A snippet cut to what is left of a budget. -/
def Snippet.cutTo (left : Nat) (sn : Snippet) : Snippet :=
  if left < sn.text.length then { sn with text := sn.text.take left, truncated := true } else sn

theorem Snippet.length_cutTo (left : Nat) (sn : Snippet) :
    (sn.cutTo left).text.length = min left sn.text.length := by
  unfold Snippet.cutTo
  split
  · exact List.length_take
  · omega

namespace SymbolIndex

variable (idx : SymbolIndex) (read : Bytes → Option Bytes)

/-- The symbol at a position, when its turn comes with a file. -/
def turnAt (file : Bytes) (i : Nat) : Option Nat :=
  (idx.syms[i]?).bind fun s => if s.id = 0 ∨ s.file ≠ file then none else some s.id

def turnsOf (file : Bytes) : List Nat :=
  match idx.files.lookup file with
  | none => []
  | some pf => (List.range' pf.symFirst pf.symCount).filterMap (idx.turnAt file)

/-- The turns of the symbols: those of the files in order, and again for a file given again. -/
def turns (files : List Bytes) : List Nat := files.flatMap idx.turnsOf

/-- The symbols in the order they are reached. -/
abbrev reached (turns : List Nat) : List Nat := reach idx.callersOf turns

/-- The bytes of the snippets of symbols. -/
abbrev snippetBytes (ids : List Nat) : Nat :=
  costs (fun id => idx.snippet read id 0) (·.text.length) ids

/-- The snippets of symbols with their ids, within a budget. -/
abbrev snippetsWithin (budget : Nat) (ids : List Nat) : List (Nat × Snippet) :=
  ration (fun id => idx.snippet read id 0) (·.text.length) Snippet.cutTo budget ids

/-- The context of files, with the ids of the symbols. -/
def labelledContext (files : List Bytes) : List (Nat × Snippet) :=
  idx.snippetsWithin read idx.limits.contextTotalBytes (idx.reached (idx.turns files))

/-- A symbol is defined in one of the files. -/
def Touched (files : List Bytes) (id : Nat) : Prop :=
  id ≠ 0 ∧ ∃ s ∈ idx.syms, s.id = id ∧ s.file ∈ files

/-- The context as it is meant. -/
structure KeepsContext (files : List Bytes) (context : List (Nat × Snippet)) : Prop where
  once : (context.map Prod.fst).Nodup
  snippets : ∀ entry ∈ context, ∃ whole left, idx.snippet read entry.1 0 = some whole ∧
    entry.2 = whole.cutTo left
  only : ∀ entry ∈ context, idx.Touched files entry.1 ∨
    ∃ id, idx.Touched files id ∧ entry.1 ∈ idx.callersOf id
  within : (context.map fun entry => entry.2.text.length).sum ≤ idx.limits.contextTotalBytes
  complete : (context.map fun entry => entry.2.text.length).sum < idx.limits.contextTotalBytes →
    ∀ id, idx.Touched files id → idx.snippet read id 0 ≠ none → id ∈ context.map Prod.fst

variable {idx read}

/-! ## The search follows the turns -/

/-- The search is where the symbols reached have brought it. -/
structure Reaches (idx : SymbolIndex) (read : Bytes → Option Bytes) (budget : Nat) (w : Walk)
    (met : List Nat) : Prop where
  left : w.budget = budget - idx.snippetBytes read met
  out : w.out = (idx.snippetsWithin read budget met).map Prod.snd
  seen : w.budget ≠ 0 → ∀ id, id ∈ w.seen ↔ id ∈ met

section Search

variable {budget : Nat} {w : Walk} {met : List Nat}

/-- Once the budget is used up nothing changes any more. -/
theorem Reaches.spent (reaches : Reaches idx read budget w met)
    (spent : w.budget = 0) (more : List Nat) :
    Reaches idx read budget w (met ++ more) where
  left := by
    have left := spent.symm.trans reaches.left
    rw [spent, snippetBytes, costs_append, ← Nat.sub_sub, ← left, Nat.zero_sub]
  out := by
    rw [snippetsWithin, ration_append, ← reaches.left, spent, ration_zero, List.append_nil]
    exact reaches.out
  seen := fun left => absurd spent left

/-- A visit while budget is left. -/
theorem Reaches.visit (reaches : Reaches idx read budget w met)
    (left : w.budget ≠ 0) (id : Nat) :
    Reaches idx read budget (idx.visit read id w) (met ++ [id]) := by
  have seen (other : Nat) : other ∈ (idx.visit read id w).seen ↔ other ∈ met ++ [id] := by
    rw [List.mem_append, List.mem_singleton, ← reaches.seen left]
    exact mem_appendUnique
  refine ⟨?_, ?_, fun _ => seen⟩
  · rw [snippetBytes, costs_append, ← Nat.sub_sub, ← reaches.left, costs_cons, costs_nil, cost]
    unfold SymbolIndex.visit pushSnippet
    cases idx.snippet read id 0 with
    | none => rfl
    | some sn =>
        dsimp only [Option.map_some, Option.getD_some]
        split
        · dsimp only
          omega
        · rfl
  · rw [snippetsWithin, ration_append, ← reaches.left, ration_cons left, ration_nil,
      List.append_nil, List.map_append, ← reaches.out]
    unfold SymbolIndex.visit pushSnippet Snippet.cutTo
    cases idx.snippet read id 0 with
    | none => exact (List.append_nil _).symm
    | some sn =>
        dsimp only [Option.map_some, Option.toList_some, List.map_cons, List.map_nil]
        split <;> rfl

theorem Reaches.visitCaller (reaches : Reaches idx read budget w met)
    (caller : Nat) :
    Reaches idx read budget (idx.visitCaller read w caller)
      (meet met caller) := by
  unfold SymbolIndex.visitCaller meet
  by_cases spent : w.budget = 0
  · rw [if_pos (.inl spent)]
    split
    · exact reaches
    · exact reaches.spent spent [caller]
  · by_cases old : caller ∈ met
    · rw [if_pos (.inr ((reaches.seen spent caller).mpr old)), if_pos old]
      exact reaches
    · rw [if_neg (by simpa [spent, reaches.seen spent] using old), if_neg old]
      exact reaches.visit spent caller

theorem Reaches.visitCallers (callers : List Nat) : ∀ {w : Walk} {met : List Nat},
    Reaches idx read budget w met →
      Reaches idx read budget (callers.foldl (idx.visitCaller read) w)
        (callers.foldl meet met) := by
  induction callers with
  | nil => exact fun reaches => reaches
  | cons caller rest inductionHypothesis =>
      exact fun reaches => inductionHypothesis (reaches.visitCaller caller)

/-- The turn of a symbol. -/
theorem Reaches.visitSym {turns : List Nat} (file : Bytes) (i : Nat)
    (reaches : Reaches idx read budget w (idx.reached turns)) :
    Reaches idx read budget (idx.visitSym read file w i)
      (idx.reached (turns ++ (idx.turnAt file i).toList)) := by
  unfold SymbolIndex.visitSym turnAt
  cases idx.syms[i]? with
  | none =>
      rw [Option.bind_none, Option.toList_none, List.append_nil]
      exact reaches
  | some s =>
      dsimp only [Option.bind_some]
      by_cases other : s.id = 0 ∨ s.file ≠ file
      · rw [if_pos (.inr other), if_pos other, Option.toList_none, List.append_nil]
        exact reaches
      · rw [if_neg other, Option.toList_some, reached, reach_concat]
        by_cases spent : w.budget = 0
        · rw [if_pos (.inl spent)]
          obtain ⟨new, shape, -, -⟩ :=
            exists_foldl_meet (idx.callersOf s.id) (idx.reached turns ++ [s.id])
          rw [shape, List.append_assoc]
          exact reaches.spent spent _
        · rw [if_neg (not_or.mpr ⟨spent, other⟩)]
          exact .visitCallers _ (reaches.visit spent s.id)

theorem Reaches.visitSyms (file : Bytes) (positions : List Nat) : ∀ {w : Walk} {turns : List Nat},
    Reaches idx read budget w (idx.reached turns) →
      Reaches idx read budget (positions.foldl (idx.visitSym read file) w)
        (idx.reached (turns ++ positions.filterMap (idx.turnAt file))) := by
  induction positions with
  | nil =>
      intro w turns reaches
      rw [List.filterMap_nil, List.append_nil]
      exact reaches
  | cons i rest inductionHypothesis =>
      intro w turns reaches
      have later := inductionHypothesis (reaches.visitSym file i)
      rw [List.append_assoc] at later
      cases here : idx.turnAt file i with
      | none =>
          rw [here] at later
          rw [List.filterMap_cons_none here]
          exact later
      | some id =>
          rw [here] at later
          rw [List.filterMap_cons_some here]
          exact later

theorem Reaches.visitFiles (files : List Bytes) : ∀ {w : Walk} {turns : List Nat},
    Reaches idx read budget w (idx.reached turns) →
      Reaches idx read budget (files.foldl (idx.visitFile read) w)
        (idx.reached (turns ++ idx.turns files)) := by
  induction files with
  | nil =>
      intro w turns reaches
      rw [SymbolIndex.turns, List.flatMap_nil, List.append_nil]
      exact reaches
  | cons file rest inductionHypothesis =>
      intro w turns reaches
      have here : Reaches idx read budget (idx.visitFile read w file)
          (idx.reached (turns ++ idx.turnsOf file)) := by
        unfold SymbolIndex.visitFile turnsOf
        cases idx.files.lookup file with
        | none =>
            rw [List.append_nil]
            exact reaches
        | some pf => exact .visitSyms file _ reaches
      have later := inductionHypothesis here
      rw [List.append_assoc] at later
      exact later

end Search

/-- The context is what the turns collect. -/
theorem contextForChange_eq (files : List Bytes) :
    idx.contextForChange read files = (idx.labelledContext read files).map Prod.snd := by
  have start : Reaches idx read idx.limits.contextTotalBytes
      ⟨idx.limits.contextTotalBytes, [], []⟩ (idx.reached []) :=
    ⟨rfl, rfl, fun _ _ => Iff.rfl⟩
  exact (Reaches.visitFiles files start).out

/-! ## The context as it is meant -/

theorem turnAt_eq_some {file : Bytes} {i id : Nat} :
    idx.turnAt file i = some id ↔
      ∃ s, idx.syms[i]? = some s ∧ s.id ≠ 0 ∧ s.file = file ∧ s.id = id := by
  rw [turnAt, Option.bind_eq_some_iff]
  refine exists_congr fun s => and_congr_right fun _ => ?_
  by_cases other : s.id = 0 ∨ s.file ≠ file
  · rw [if_pos other]
    grind
  · rw [if_neg other, Option.some.injEq]
    grind

/-- The symbols that have a turn are those defined in the files. -/
theorem mem_turns (sound : Sound idx) {files : List Bytes} {id : Nat} :
    id ∈ idx.turns files ↔ idx.Touched files id := by
  rw [turns, List.mem_flatMap]
  constructor
  · rintro ⟨file, given, member⟩
    unfold turnsOf at member
    cases known : idx.files.lookup file with
    | none =>
        rw [known] at member
        exact absurd member List.not_mem_nil
    | some pf =>
        rw [known] at member
        obtain ⟨i, -, turn⟩ := List.mem_filterMap.mp member
        obtain ⟨s, found, live, rfl, rfl⟩ := turnAt_eq_some.mp turn
        exact ⟨live, s, List.mem_of_getElem? found, rfl, given⟩
  · rintro ⟨live, s, member, rfl, given⟩
    obtain ⟨i, found⟩ := List.mem_iff_getElem?.mp member
    have owned : (idx.syms[i]?).bind symOwner = some s.file := by
      rw [found, Option.bind_some]
      exact symOwner_eq_some.mpr ⟨live, rfl⟩
    obtain ⟨r, range, inside⟩ := (sound.symsOwned i s.file).mp owned
    obtain ⟨pf, known, rfl⟩ := Option.map_eq_some_iff.mp range
    refine ⟨s.file, given, ?_⟩
    rw [turnsOf, known]
    refine List.mem_filterMap.mpr ⟨i, List.mem_range'_1.mpr inside, ?_⟩
    exact turnAt_eq_some.mpr ⟨s, found, live, rfl, rfl⟩

/-- The context is as it is meant but for the symbols that come twice. -/
theorem keepsContext_iff_once (sound : Sound idx) (files : List Bytes) :
    idx.KeepsContext read files (idx.labelledContext read files) ↔
      ((idx.labelledContext read files).map Prod.fst).Nodup := by
  refine ⟨KeepsContext.once, fun once => ?_⟩
  have sum : ((idx.labelledContext read files).map fun entry => entry.2.text.length).sum =
      min idx.limits.contextTotalBytes (idx.snippetBytes read (idx.reached (idx.turns files))) :=
    @sum_ration Nat Snippet (fun id => idx.snippet read id 0) (·.text.length) Snippet.cutTo
      Snippet.length_cutTo _ _
  refine ⟨once, fun entry member => (exists_of_mem_ration _ member).2, fun entry member => ?_,
    sum ▸ Nat.min_le_left .., fun left id touched readable => ?_⟩
  · obtain turn | ⟨turn, member, calls⟩ := mem_reach.mp (exists_of_mem_ration _ member).1
    · exact .inl ((mem_turns sound).mp turn)
    · exact .inr ⟨turn, (mem_turns sound).mp member, calls⟩
  · refine mem_ration_of_costs_lt _ ?_ (mem_reach.mpr (.inl ((mem_turns sound).mpr touched)))
      readable
    rw [sum] at left
    have fits : idx.snippetBytes read (idx.reached (idx.turns files)) <
        idx.limits.contextTotalBytes := by omega
    exact fits

end SymbolIndex

open SymbolIndex

/-- **The context of a change is as it is meant exactly when every symbol whose snippet can be had
has its turn before it is reached in another way, as an earlier turn or as the caller of one, or
only after the budget is used up.** -/
theorem contextForChange_keeps_iff {limits : IndexLimits} {ops : List Op} {idx : SymbolIndex}
    (ran : indexRun limits ops = some idx) (read : Bytes → Option Bytes) (files : List Bytes) :
    idx.contextForChange read files = (idx.labelledContext read files).map Prod.snd ∧
      (idx.KeepsContext read files (idx.labelledContext read files) ↔
        ∀ before id after, idx.turns files = before ++ id :: after →
          idx.snippet read id 0 ≠ none →
          (id ∈ before ∨ ∃ earlier ∈ before, id ∈ idx.callersOf earlier) →
          idx.limits.contextTotalBytes ≤ idx.snippetBytes read (idx.reached before)) := by
  refine ⟨contextForChange_eq files, (keepsContext_iff_once (sound_run ran) files).trans ?_⟩
  refine (nodup_ration_reach_iff _ _).trans ?_
  refine forall_congr' fun before => forall_congr' fun id => forall_congr' fun after => ?_
  rw [mem_reach]

/-- A file with a function and one that calls it. -/
def calleeFirst : Bytes := str "int g() { return 1; }\nint f() { return g(); }"

def readCalleeFirst (file : Bytes) : Option Bytes :=
  if file = str "a.c" then some calleeFirst else none

theorem contextForChange_keeps_repeated : ∃ idx,
    indexRun {} [.extractFile (str "a.c") (some calleeFirst)] = some idx ∧
      idx.contextForChange readCalleeFirst [str "a.c", str "a.c"] =
        (idx.labelledContext readCalleeFirst [str "a.c", str "a.c"]).map Prod.snd ∧
      (idx.KeepsContext readCalleeFirst [str "a.c", str "a.c"]
          (idx.labelledContext readCalleeFirst [str "a.c", str "a.c"]) ↔
        ∀ before id after, idx.turns [str "a.c", str "a.c"] = before ++ id :: after →
          idx.snippet readCalleeFirst id 0 ≠ none →
          (id ∈ before ∨ ∃ earlier ∈ before, id ∈ idx.callersOf earlier) →
          idx.limits.contextTotalBytes ≤
            idx.snippetBytes readCalleeFirst (idx.reached before)) := by
  obtain ⟨idx, ran⟩ := Option.isSome_iff_exists.mp
    (show (indexRun {} [.extractFile (str "a.c") (some calleeFirst)]).isSome by decide +kernel)
  exact ⟨idx, ran, contextForChange_keeps_iff ran _ _⟩

/-- The function that calls comes as a caller and again at its own turn. -/
theorem contextForChange_repeats : ∃ idx,
    indexRun {} [.extractFile (str "a.c") (some calleeFirst)] = some idx ∧
      idx.contextForChange readCalleeFirst [str "a.c"] =
        (idx.labelledContext readCalleeFirst [str "a.c"]).map Prod.snd ∧
      (idx.labelledContext readCalleeFirst [str "a.c"]).map Prod.fst = [1, 2, 2] ∧
      ¬idx.KeepsContext readCalleeFirst [str "a.c"]
        (idx.labelledContext readCalleeFirst [str "a.c"]) := by
  obtain ⟨idx, ran, ids⟩ := (Option.any_eq_true (fun idx : SymbolIndex =>
      (idx.labelledContext readCalleeFirst [str "a.c"]).map Prod.fst == [1, 2, 2]) _).mp
    (show (indexRun {} [.extractFile (str "a.c") (some calleeFirst)]).any _ = true by
      decide +kernel)
  have same := beq_iff_eq.mp ids
  refine ⟨idx, ran, contextForChange_eq _, same, fun keeps => ?_⟩
  have once := keeps.once
  rw [same] at once
  exact absurd once (by decide)

end Opencodepp.Graph
