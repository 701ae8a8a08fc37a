import Mathlib.Data.List.Sort
import Mathlib.Data.Set.Function
import Opencodepp.Graph.Agreement
import Opencodepp.Graph.ChangeContext

/-!
# An index without its history

Ids are handed out in the order in which files are parsed, and files come and go: they are
parsed again, evicted, compacted.  What an index answers does not depend on that.  Two indexes
that hold the same files, each as last parsed from the same text, differ in the numbers of their
symbols only (`index_forgets_history`), as long as no call of these texts outlives its function.
So a session of any length answers like an index that parses each of its files once.
-/

set_option autoImplicit false

namespace Opencodepp.Graph

open Opencodepp.Core
open Opencodepp.Library

/-! ## Numbers -/

/-- The id of the first symbol of a file. -/
def firstId (idx : SymbolIndex) (file : Bytes) : Nat :=
  ((own symOwner file idx.syms).head?.map (·.id)).getD 0

/-- The id, in another index, of the symbol at the same place of the same file. -/
def renumber (idx idx' : SymbolIndex) (id : Nat) : Nat :=
  ((idx.symById id).map fun s => id - firstId idx s.file + firstId idx' s.file).getD 0

/-- Two indexes answer alike, up to the numbers of the symbols. -/
structure Renumbers (number : Nat → Nat) (idx idx' : SymbolIndex) : Prop where
  symbol : ∀ {id s}, idx.symById id = some s →
    idx'.symById (number id) = some { s with id := number id }
  onto : ∀ {id' s'}, idx'.symById id' = some s' → ∃ id, (idx.symById id).isSome ∧ number id = id'
  injective : Set.InjOn number {id | (idx.symById id).isSome}
  callees : ∀ {id s}, idx.symById id = some s → idx'.callees (number id) = idx.callees id
  callersOf : ∀ {id s}, idx.symById id = some s →
    idx'.callersOf (number id) = (idx.callersOf id).map number
  callersOfName : ∀ name caller, caller ∈ idx'.callersOfName name ↔
    ∃ original ∈ idx.callersOfName name, number original = caller

/-- Two sessions hold the same files, as parsed from the same texts. -/
structure SameTexts (w w' : Session) : Prop where
  files : ∀ file, file ∈ w.idx.files ↔ file ∈ w'.idx.files
  texts : ∀ file ∈ w.idx.files, w.sources file = w'.sources file

theorem SameTexts.symm {w w' : Session} (same : SameTexts w w') : SameTexts w' w where
  files file := (same.files file).symm
  texts file member := (same.texts file ((same.files file).mpr member)).symm

/-- No call in the text of an indexed file outlives its function. -/
def IndexedKept (w : Session) : Prop :=
  ∀ file ∈ w.idx.files, ∀ text, w.sources file = some text → Kept w.idx.limits file text

/-- Two sessions with the same caps that ended up with the same files. -/
structure Twins (w w' : Session) : Prop extends SameTexts w w' where
  settled : Settled w
  settled' : Settled w'
  maxSyms : w'.idx.limits.maxSymsPerFile = w.idx.limits.maxSymsPerFile
  maxDeps : w'.idx.limits.maxDepsPerFile = w.idx.limits.maxDepsPerFile
  kept : IndexedKept w

theorem Twins.symm {w w' : Session} (twins : Twins w w') : Twins w' w where
  toSameTexts := twins.toSameTexts.symm
  settled := twins.settled'
  settled' := twins.settled
  maxSyms := twins.maxSyms.symm
  maxDeps := twins.maxDeps.symm
  kept := by
    intro file member text source
    have indexed := (twins.files file).mpr member
    have here := twins.kept file indexed text ((twins.texts file indexed).trans source)
    unfold Kept at here ⊢
    rw [twins.maxSyms, twins.maxDeps]
    exact here

/-! ## Collecting from renumbered dependencies -/

/-- What a query collects is met in the order of the dependencies. -/
theorem collect_eq {α : Type} [DecidableEq α] (deps : List Dep) (qualifies : Dep → Bool)
    (gives : Dep → α) :
    collect deps qualifies gives =
      ((deps.filter fun d => decide (d.fromFile ≠ []) && qualifies d).map gives).foldl meet [] := by
  have general : ∀ (deps : List Dep) (out : List α),
      deps.foldl (fun out d =>
        if d.fromFile = [] then out
        else if qualifies d then appendUnique out (gives d)
        else out) out =
      ((deps.filter fun d => decide (d.fromFile ≠ []) && qualifies d).map gives).foldl meet
        out := by
    intro deps
    induction deps with
    | nil => exact fun _ => rfl
    | cons d rest inductionHypothesis =>
        intro out
        rw [List.foldl_cons, inductionHypothesis]
        by_cases dead : d.fromFile = []
        · simp [dead]
        by_cases taken : qualifies d = true
        · rw [if_neg dead, if_pos taken, List.filter_cons_of_pos (by simp [dead, taken]),
            List.map_cons, List.foldl_cons]
          rfl
        · simp [dead, taken]
  exact general deps []

/-- A query that one file alone can answer looks at the dependencies of that file only. -/
theorem collect_own {α : Type} [DecidableEq α] {deps : List Dep} {qualifies : Dep → Bool}
    (gives : Dep → α) {file : Bytes}
    (home : ∀ d ∈ deps, d.fromFile ≠ [] → qualifies d = true → d.fromFile = file) :
    collect deps qualifies gives = collect (own depOwner file deps) qualifies gives := by
  have same : (own depOwner file deps).filter (fun d => decide (d.fromFile ≠ []) && qualifies d) =
      deps.filter fun d => decide (d.fromFile ≠ []) && qualifies d := by
    unfold own
    rw [List.filter_filter]
    refine List.filter_congr fun d member => ?_
    by_cases counts : d.fromFile ≠ [] ∧ qualifies d = true
    · have owns : depOwner d = some file :=
        depOwner_eq_some.mpr ⟨counts.1, home d member counts.1 counts.2⟩
      simp [counts.1, counts.2, owns]
    · by_cases live : d.fromFile = [] <;> simp_all
  rw [collect_eq, collect_eq, same]

/-- A query of renumbered dependencies gives the renumbered answer. -/
theorem collect_map {α β : Type} [DecidableEq α] [DecidableEq β] {deps : List Dep}
    {change : Dep → Dep} {qualifies qualifies' : Dep → Bool} {gives : Dep → α} {gives' : Dep → β}
    {number : α → β} {P : α → Prop} (injective : Set.InjOn number {x | P x})
    (files : ∀ d, (change d).fromFile = d.fromFile)
    (same : ∀ d ∈ deps, d.fromFile ≠ [] → qualifies' (change d) = qualifies d)
    (answers : ∀ d, gives' (change d) = number (gives d))
    (known : ∀ d ∈ deps, d.fromFile ≠ [] → qualifies d = true → P (gives d)) :
    collect (deps.map change) qualifies' gives' = (collect deps qualifies gives).map number := by
  have filtered : (deps.map change).filter (fun d => decide (d.fromFile ≠ []) && qualifies' d) =
      (deps.filter fun d => decide (d.fromFile ≠ []) && qualifies d).map change := by
    rw [List.filter_map]
    refine congrArg (List.map change) (List.filter_congr fun d member => ?_)
    rw [Function.comp_apply, files]
    by_cases live : d.fromFile = []
    · simp [live]
    · rw [same d member live]
  have given : ((deps.filter fun d => decide (d.fromFile ≠ []) && qualifies d).map change).map
      gives' = ((deps.filter fun d => decide (d.fromFile ≠ []) && qualifies d).map gives).map
        number := by
    rw [List.map_map, List.map_map]
    exact List.map_congr_left fun d _ => answers d
  rw [collect_eq, collect_eq, filtered, given]
  refine @foldl_meet_map _ _ _ _ _ _ injective _ (fun x member => ?_) [] fun x member => ?_
  · obtain ⟨d, counted, rfl⟩ := List.mem_map.mp member
    obtain ⟨stored, counts⟩ := List.mem_filter.mp counted
    rw [Bool.and_eq_true, decide_eq_true_eq] at counts
    exact known d stored counts.1 counts.2
  · cases member

/-! ## The symbols -/

theorem renumber_of_symById {idx idx' : SymbolIndex} {id : Nat} {s : Sym}
    (known : idx.symById id = some s) :
    renumber idx idx' id = id - firstId idx s.file + firstId idx' s.file := by
  unfold renumber
  rw [known]
  rfl

theorem id_of_symById {idx : SymbolIndex} {id : Nat} {s : Sym} (known : idx.symById id = some s) :
    s.id = id ∧ id ≠ 0 := by
  unfold SymbolIndex.symById at known
  split at known
  · cases known
  · rename_i live
    obtain ⟨-, same⟩ := Option.filter_eq_some_iff.mp known
    exact ⟨by simpa using same, live⟩

/-- A live symbol has its place among those of its file. -/
theorem exists_place {idx : SymbolIndex} {id : Nat} {s : Sym} (known : idx.symById id = some s) :
    ∃ k : Nat, (own symOwner s.file idx.syms)[k]? = some s := by
  obtain ⟨rfl, -⟩ := id_of_symById known
  exact List.mem_iff_getElem?.mp (mem_own_of_symById known).2

section Renumbered

variable {w w' : Session} (twins : Twins w w')

include twins

/-- A file that both hold has the imprint of one text in both. -/
theorem exists_imprints {file : Bytes} (member : file ∈ w.idx.files) :
    ∃ text syms deps base base', w.sources file = some text ∧
      Imprint w.idx file text syms deps base ∧ Imprint w'.idx file text syms deps base' := by
  obtain ⟨text, syms, deps, base, source, imprint⟩ := twins.settled.linked file member
  obtain ⟨text', syms', deps', base', source', imprint'⟩ :=
    twins.settled'.linked file ((twins.files file).mp member)
  obtain rfl : text = text' :=
    Option.some.inj (source.symm.trans ((twins.texts file member).trans source'))
  obtain ⟨rfl, rfl⟩ := Extraction.found.inj (imprint.found.symm.trans imprint'.found)
  exact ⟨text, syms, deps, base, base', source, imprint, imprint'⟩

/-- The symbol at a place of a file is the same in both, and its number is the other one's. -/
theorem getElem?_renumbered {file : Bytes} (member : file ∈ w.idx.files) {k : Nat} {s : Sym}
    (there : (own symOwner file w.idx.syms)[k]? = some s) :
    (own symOwner file w'.idx.syms)[k]? =
      some { s with id := renumber w.idx w'.idx s.id } := by
  obtain ⟨text, syms, deps, base, base', -, imprint, imprint'⟩ :=
    exists_imprints twins member
  have start : firstId w.idx file = base + 1 ∧ firstId w'.idx file = base' + 1 := by
    have some_ : (syms.take w.idx.limits.maxSymsPerFile)[0]? ≠ none := by
      intro nothing
      rw [imprint.ownSyms, getElem?_numbered] at there
      have short := List.getElem?_eq_none_iff.mp nothing
      rw [List.getElem?_eq_none (Nat.le_trans short (Nat.zero_le k))] at there
      cases there
    obtain ⟨first, head⟩ := Option.ne_none_iff_exists'.mp some_
    unfold firstId
    rw [imprint.ownSyms, imprint'.ownSyms, twins.maxSyms, List.head?_eq_getElem?,
      List.head?_eq_getElem?,
      getElem?_numbered, getElem?_numbered, head]
    exact ⟨rfl, rfl⟩
  obtain ⟨stored, owns⟩ := mem_own.mp (List.mem_of_getElem? there)
  obtain ⟨live, home⟩ := symOwner_eq_some.mp owns
  have number : renumber w.idx w'.idx s.id = s.id - firstId w.idx file + firstId w'.idx file :=
    home ▸ renumber_of_symById (symById_of_mem twins.settled.sound stored live)
  rw [imprint.ownSyms, getElem?_numbered] at there
  obtain ⟨original, found, rfl⟩ := Option.map_eq_some_iff.mp there
  have moved : base + k + 1 - (base + 1) + (base' + 1) = base' + k + 1 := by omega
  rw [imprint'.ownSyms, twins.maxSyms, getElem?_numbered, found, number, start.1, start.2, moved]
  rfl

/-- What is live in one index is live in the other, under its number. -/
theorem symById_renumber {id : Nat} {s : Sym} (known : w.idx.symById id = some s) :
    w'.idx.symById (renumber w.idx w'.idx id) =
      some { s with id := renumber w.idx w'.idx id } := by
  obtain ⟨rfl, live⟩ := id_of_symById known
  obtain ⟨k, there⟩ := exists_place known
  have mine := mem_own_of_symById known
  obtain ⟨pf, _, indexed, _⟩ := range_of_own twins.settled.sound mine.2
  have member : s.file ∈ w.idx.files := AList.lookup_isSome.mp (Option.isSome_of_eq_some indexed)
  have twin := getElem?_renumbered twins member there
  obtain ⟨stored, owns⟩ := mem_own.mp (List.mem_of_getElem? twin)
  exact symById_of_mem twins.settled'.sound stored (symOwner_eq_some.mp owns).1

/-- The numbers lead back. -/
theorem renumber_renumber {id : Nat} {s : Sym} (known : w.idx.symById id = some s) :
    renumber w'.idx w.idx (renumber w.idx w'.idx id) = id := by
  obtain ⟨rfl, live⟩ := id_of_symById known
  have twin := symById_renumber twins known
  have number : renumber w.idx w'.idx s.id = _ := renumber_of_symById known
  have back : renumber w'.idx w.idx (renumber w.idx w'.idx s.id) = _ := renumber_of_symById twin
  dsimp only at back
  have first : firstId w.idx s.file ≤ s.id := by
    obtain ⟨k, there⟩ := exists_place known
    have grows := pairwise_own twins.settled.sound s.file
    unfold firstId
    cases listed : own symOwner s.file w.idx.syms with
    | nil => exact Nat.zero_le _
    | cons head rest =>
        rw [listed] at there grows
        obtain rfl | later := List.mem_cons.mp (List.mem_of_getElem? there)
        · exact Nat.le_refl _
        · exact Nat.le_of_lt ((List.pairwise_cons.mp grows).1 s later)
  omega

theorem injOn_renumber :
    Set.InjOn (renumber w.idx w'.idx) {id | (w.idx.symById id).isSome} := by
  intro a liveA b liveB equal
  obtain ⟨s, knownA⟩ := Option.isSome_iff_exists.mp liveA
  obtain ⟨t, knownB⟩ := Option.isSome_iff_exists.mp liveB
  rw [← renumber_renumber twins knownA, equal,
    renumber_renumber twins knownB]

/-- The symbols of a file are the same in both, but for their numbers. -/
theorem own_syms_renumbered {file : Bytes} (member : file ∈ w.idx.files) :
    own symOwner file w'.idx.syms =
      (own symOwner file w.idx.syms).map fun s => { s with id := renumber w.idx w'.idx s.id } := by
  obtain ⟨text, syms, deps, base, base', -, imprint, imprint'⟩ :=
    exists_imprints twins member
  refine List.ext_getElem? fun k => ?_
  rw [List.getElem?_map]
  cases there : (own symOwner file w.idx.syms)[k]? with
  | some s => exact getElem?_renumbered twins member there
  | none =>
      rw [imprint.ownSyms, getElem?_numbered] at there
      rw [imprint'.ownSyms, getElem?_numbered, twins.maxSyms, Option.map_none]
      exact Option.map_eq_none_iff.mpr (Option.map_eq_none_iff.mp there)

/-! ## The dependencies -/

/-- A dependency with the numbers of its endpoints changed. -/
def redirected (number : Nat → Nat) (d : Dep) : Dep :=
  { d with fromSym := number d.fromSym, toSym := number d.toSym }

/-- The dependencies of a file are the same in both, but for the numbers of their endpoints. -/
theorem own_deps_renumbered {file : Bytes} (member : file ∈ w.idx.files) :
    own depOwner file w'.idx.deps =
      (own depOwner file w.idx.deps).map (redirected (renumber w.idx w'.idx)) := by
  have symbols := own_syms_renumbered twins member
  obtain ⟨text, syms, deps, base, base', source, imprint, imprint'⟩ :=
    exists_imprints twins member
  rw [imprint'.ownDeps, imprint.ownDeps, ← imprint.ownSyms, ← imprint'.ownSyms, twins.maxDeps,
    List.map_map]
  refine List.map_congr_left fun d taken => ?_
  have unresolved := (attributed_of_found imprint.found (List.mem_of_mem_take taken)).unresolved
  have target : (nameToId (own symOwner file w'.idx.syms) d.toName).getD d.toSym =
      renumber w.idx w'.idx ((nameToId (own symOwner file w.idx.syms) d.toName).getD d.toSym) := by
    rw [symbols, nameToId, nameToId, List.find?_map, unresolved]
    have names : ((fun s : Sym => decide (s.name = d.toName)) ∘
        fun s : Sym => { s with id := renumber w.idx w'.idx s.id }) =
          fun s : Sym => decide (s.name = d.toName) := rfl
    rw [names]
    cases (own symOwner file w.idx.syms).find? fun s => decide (s.name = d.toName) <;> rfl
  have origin : (if d.fromSym ≠ 0 then d.fromSym + base' else 0) =
      renumber w.idx w'.idx (if d.fromSym ≠ 0 then d.fromSym + base else 0) := by
    by_cases outside : d.fromSym = 0
    · rw [if_neg (not_not_intro outside), if_neg (not_not_intro outside)]
      rfl
    -- the symbol that the call is attributed to survives the cap
    · rw [if_pos outside, if_pos outside]
      obtain ⟨_, _, _, _, s, found, _, _, _⟩ :=
        (attributed_of_found imprint.found (List.mem_of_mem_take taken)).encloses outside
      have inside := twins.kept file member text source syms deps imprint.found d taken
      have there : (own symOwner file w.idx.syms)[d.fromSym - 1]? =
          some { s with id := base + (d.fromSym - 1) + 1, file, lang := detectLang file } := by
        rw [imprint.ownSyms, getElem?_numbered, List.getElem?_take, if_pos (by omega), found]
        rfl
      have twin := getElem?_renumbered twins member there
      rw [imprint'.ownSyms] at twin
      have id := (id_numbered twin).1
      have place : base + (d.fromSym - 1) + 1 = d.fromSym + base := by omega
      dsimp only at id
      rw [place] at id
      omega
  rw [Function.comp_apply]
  unfold rebased redirected
  dsimp only
  rw [target, origin]

/-! ## Endpoints -/

omit twins

/-- An endpoint is none or a live symbol. -/
def Endpoint (idx : SymbolIndex) (id : Nat) : Prop := id = 0 ∨ (idx.symById id).isSome

/-- The source of a live dependency is none or a live symbol of its file. -/
theorem source_of_indexedKept (settled : Settled w) (kept : IndexedKept w) {d : Dep}
    (member : d ∈ w.idx.deps) (live : d.fromFile ≠ []) (attributed : d.fromSym ≠ 0) :
    ∃ c, w.idx.symById d.fromSym = some c ∧ c.file = d.fromFile := by
  classical
  have linked : Linked w.idx fun file => if file ∈ w.idx.files then w.sources file else none := by
    intro file indexed
    obtain ⟨text, syms, deps, base, source, imprint⟩ := settled.linked file indexed
    exact ⟨text, syms, deps, base, (if_pos indexed).trans source, imprint⟩
  obtain ⟨c, found, home, -⟩ := linked.source settled.sound (fun file text source => by
    split at source
    · next indexed => exact kept file indexed text source
    · cases source) member live attributed
  exact ⟨c, found, home⟩

theorem endpoint_fromSym (settled : Settled w) (kept : IndexedKept w) {d : Dep}
    (member : d ∈ w.idx.deps) (live : d.fromFile ≠ []) : Endpoint w.idx d.fromSym := by
  by_cases outside : d.fromSym = 0
  · exact .inl outside
  · obtain ⟨c, found, -⟩ := source_of_indexedKept settled kept member live outside
    exact .inr (Option.isSome_of_eq_some found)

theorem endpoint_toSym (settled : Settled w) {d : Dep} (member : d ∈ w.idx.deps)
    (live : d.fromFile ≠ []) : Endpoint w.idx d.toSym := by
  by_cases unresolved : d.toSym = 0
  · exact .inl unresolved
  · obtain ⟨c, found, -⟩ := settled.linked.target settled.sound member live unresolved
    exact .inr (Option.isSome_of_eq_some found)

/-- The calls of a symbol stand in its file. -/
theorem home_of_fromSym (settled : Settled w) (kept : IndexedKept w) {id : Nat} {s : Sym}
    (known : w.idx.symById id = some s) : ∀ d ∈ w.idx.deps, d.fromFile ≠ [] →
      (d.fromSym = id && d.kind = .call) = true → d.fromFile = s.file := by
  intro d member live counts
  simp only [Bool.and_eq_true, decide_eq_true_eq] at counts
  obtain ⟨c, found, file⟩ := source_of_indexedKept settled kept member live
    (counts.1 ▸ (id_of_symById known).2)
  rw [counts.1, known] at found
  exact Option.some.inj found ▸ file.symm

/-- The calls that were resolved to a symbol stand in its file. -/
theorem home_of_toSym (settled : Settled w) {id : Nat} {s : Sym}
    (known : w.idx.symById id = some s) : ∀ d ∈ w.idx.deps, d.fromFile ≠ [] →
      (d.toSym = id && d.kind = .call && d.fromSym ≠ 0) = true → d.fromFile = s.file := by
  intro d member live counts
  simp only [Bool.and_eq_true, decide_eq_true_eq] at counts
  obtain ⟨c, found, file, -⟩ := settled.linked.target settled.sound member live
    (counts.1.1 ▸ (id_of_symById known).2)
  rw [counts.1.1, known] at found
  exact Option.some.inj found ▸ file.symm

theorem mem_files_of_symById (settled : Settled w) {id : Nat} {s : Sym}
    (known : w.idx.symById id = some s) : s.file ∈ w.idx.files := by
  obtain ⟨rfl, -⟩ := id_of_symById known
  obtain ⟨pf, _, indexed, _⟩ := range_of_own settled.sound (mem_own_of_symById known).2
  exact AList.lookup_isSome.mp (Option.isSome_of_eq_some indexed)

theorem mem_files_of_dep (settled : Settled w) {d : Dep} (member : d ∈ w.idx.deps)
    (live : d.fromFile ≠ []) : d.fromFile ∈ w.idx.files :=
  mem_files_of_owned settled.sound.depsOwned d member d.fromFile
    (depOwner_eq_some.mpr ⟨live, rfl⟩)

include twins

theorem renumber_ne_zero {id : Nat} (live : (w.idx.symById id).isSome) :
    renumber w.idx w'.idx id ≠ 0 := by
  obtain ⟨s, known⟩ := Option.isSome_iff_exists.mp live
  exact (id_of_symById (symById_renumber twins known)).2

theorem renumber_eq_zero_iff {id : Nat} (endpoint : Endpoint w.idx id) :
    renumber w.idx w'.idx id = 0 ↔ id = 0 := by
  refine ⟨fun zero => endpoint.resolve_right fun live => ?_, fun zero => by rw [zero]; rfl⟩
  exact renumber_ne_zero twins live zero

theorem renumber_eq_iff {a b : Nat} (endpoint : Endpoint w.idx a)
    (live : (w.idx.symById b).isSome) :
    renumber w.idx w'.idx a = renumber w.idx w'.idx b ↔ a = b := by
  refine ⟨fun equal => ?_, congrArg _⟩
  obtain rfl | alive := endpoint
  · exact absurd equal.symm (renumber_ne_zero twins live)
  · exact injOn_renumber twins alive live equal

/-! ## The queries -/

theorem callees_renumbered {id : Nat} {s : Sym} (known : w.idx.symById id = some s) :
    w'.idx.callees (renumber w.idx w'.idx id) = w.idx.callees id := by
  have back := symById_renumber twins known
  obtain ⟨rfl, -⟩ := id_of_symById known
  have alive : (w.idx.symById s.id).isSome := Option.isSome_of_eq_some known
  have home := home_of_fromSym twins.settled twins.kept known
  have home' := home_of_fromSym twins.settled' twins.symm.kept back
  have indexed : s.file ∈ w.idx.files := mem_files_of_symById twins.settled known
  unfold SymbolIndex.callees
  rw [collect_own _ home', collect_own _ home, own_deps_renumbered twins indexed]
  have plain : Set.InjOn (id : Bytes → Bytes) {_name | True} := Set.injOn_id _
  have same : ∀ d ∈ own depOwner s.file w.idx.deps, d.fromFile ≠ [] →
      ((redirected (renumber w.idx w'.idx) d).fromSym = renumber w.idx w'.idx s.id &&
        (redirected (renumber w.idx w'.idx) d).kind = .call) =
          (decide (d.fromSym = s.id) && decide (d.kind = .call)) := by
    intro d member live
    have endpoint := endpoint_fromSym twins.settled twins.kept (mem_own.mp member).1 live
    have from_ : (redirected (renumber w.idx w'.idx) d).fromSym =
        renumber w.idx w'.idx d.fromSym := rfl
    rw [from_]
    simp only [renumber_eq_iff twins endpoint alive]
    rfl
  have moved : collect ((own depOwner s.file w.idx.deps).map (redirected (renumber w.idx w'.idx)))
      (fun d => d.fromSym = renumber w.idx w'.idx s.id && d.kind = .call) (·.toName) =
        (collect (own depOwner s.file w.idx.deps)
          (fun d => d.fromSym = s.id && d.kind = .call) (·.toName)).map id :=
    collect_map plain (fun _ => rfl) same (fun _ => rfl) fun _ _ _ _ => trivial
  exact moved.trans (List.map_id _)

theorem callersOf_renumbered {id : Nat} {s : Sym} (known : w.idx.symById id = some s) :
    w'.idx.callersOf (renumber w.idx w'.idx id) =
      (w.idx.callersOf id).map (renumber w.idx w'.idx) := by
  have back := symById_renumber twins known
  obtain ⟨rfl, -⟩ := id_of_symById known
  have alive : (w.idx.symById s.id).isSome := Option.isSome_of_eq_some known
  have home := home_of_toSym twins.settled known
  have home' := home_of_toSym twins.settled' back
  have indexed : s.file ∈ w.idx.files := mem_files_of_symById twins.settled known
  unfold SymbolIndex.callersOf
  rw [collect_own _ home', collect_own _ home, own_deps_renumbered twins indexed]
  refine collect_map (injOn_renumber twins) (fun _ => rfl) ?_ (fun _ => rfl) ?_
  · intro d member live
    obtain ⟨stored, -⟩ := mem_own.mp member
    have source := endpoint_fromSym twins.settled twins.kept stored live
    have target := endpoint_toSym twins.settled stored live
    have from_ : (redirected (renumber w.idx w'.idx) d).fromSym =
        renumber w.idx w'.idx d.fromSym := rfl
    have to_ : (redirected (renumber w.idx w'.idx) d).toSym = renumber w.idx w'.idx d.toSym := rfl
    rw [from_, to_]
    simp only [ne_eq, renumber_eq_iff twins target alive, renumber_eq_zero_iff twins source]
    rfl
  · intro d member live counts
    obtain ⟨stored, -⟩ := mem_own.mp member
    simp only [Bool.and_eq_true, decide_eq_true_eq] at counts
    exact (endpoint_fromSym twins.settled twins.kept stored live).resolve_left counts.2

/-- A live dependency of one index is the redirected one of the other. -/
theorem exists_dep {d : Dep} (member : d ∈ w'.idx.deps) (live : d.fromFile ≠ []) :
    ∃ original ∈ w.idx.deps, original.fromFile ≠ [] ∧
      redirected (renumber w.idx w'.idx) original = d := by
  have indexed := (twins.files _).mpr (mem_files_of_dep twins.settled' member live)
  have mine : d ∈ own depOwner d.fromFile w'.idx.deps :=
    mem_own.mpr ⟨member, depOwner_eq_some.mpr ⟨live, rfl⟩⟩
  rw [own_deps_renumbered twins indexed] at mine
  obtain ⟨original, there, same⟩ := List.mem_map.mp mine
  obtain ⟨stored, owns⟩ := mem_own.mp there
  exact ⟨original, stored, (depOwner_eq_some.mp owns).1, same⟩

theorem mem_redirected {d : Dep} (member : d ∈ w.idx.deps) (live : d.fromFile ≠ []) :
    redirected (renumber w.idx w'.idx) d ∈ w'.idx.deps := by
  have indexed := mem_files_of_dep twins.settled member live
  have mine : d ∈ own depOwner d.fromFile w.idx.deps :=
    mem_own.mpr ⟨member, depOwner_eq_some.mpr ⟨live, rfl⟩⟩
  have moved := List.mem_map_of_mem (f := redirected (renumber w.idx w'.idx)) mine
  rw [← own_deps_renumbered twins indexed] at moved
  exact (mem_own.mp moved).1

theorem callersOfName_renumbered (name : Bytes) (caller : Nat) :
    caller ∈ w'.idx.callersOfName name ↔
      ∃ original ∈ w.idx.callersOfName name, renumber w.idx w'.idx original = caller := by
  constructor
  · intro calls
    obtain ⟨attributed, d, member, live, kind, rfl, named⟩ := mem_callersOfName.mp calls
    obtain ⟨original, stored, alive, rfl⟩ := exists_dep twins member live
    have source : original.fromSym ≠ 0 := fun zero => attributed (by
      change renumber w.idx w'.idx original.fromSym = 0
      rw [zero]
      rfl)
    exact ⟨original.fromSym,
      mem_callersOfName.mpr ⟨source, original, stored, alive, kind, rfl, named⟩,
      rfl⟩
  · rintro ⟨_, calls, rfl⟩
    obtain ⟨attributed, d, member, live, kind, rfl, named⟩ := mem_callersOfName.mp calls
    have endpoint := endpoint_fromSym twins.settled twins.kept member live
    exact mem_callersOfName.mpr ⟨fun zero =>
      attributed ((renumber_eq_zero_iff twins endpoint).mp zero),
      redirected (renumber w.idx w'.idx) d, mem_redirected twins member live, live, kind, rfl,
      named⟩

theorem renumbers : Renumbers (renumber w.idx w'.idx) w.idx w'.idx where
  symbol := symById_renumber twins
  onto := by
    intro id' s' known
    have back := symById_renumber twins.symm known
    exact ⟨renumber w'.idx w.idx id', Option.isSome_of_eq_some back,
      renumber_renumber twins.symm known⟩
  injective := injOn_renumber twins
  callees := callees_renumbered twins
  callersOf := callersOf_renumbered twins
  callersOfName := callersOfName_renumbered twins

/-! ## The context of a change -/

omit twins

/-- The turns of a file are those of its symbols, in their order. -/
theorem turnsOf_eq (settled : Settled w) (file : Bytes) :
    w.idx.turnsOf file = (own symOwner file w.idx.syms).map (·.id) := by
  refine List.Pairwise.eq_of_mem_iff (r := fun i j : Nat => i < j) ?_ ?_ fun id => ?_
  · unfold SymbolIndex.turnsOf
    cases w.idx.files.lookup file with
    | none => exact List.Pairwise.nil
    | some pf =>
        refine List.Pairwise.filterMap _ (fun i j before a turn b turn' => ?_)
          (List.pairwise_lt_range' (s := pf.symFirst) (n := pf.symCount))
        obtain ⟨s, found, live, -, rfl⟩ := SymbolIndex.turnAt_eq_some.mp turn
        obtain ⟨s', found', live', -, rfl⟩ := SymbolIndex.turnAt_eq_some.mp turn'
        have first := settled.sound.placed i s found live
        have second := settled.sound.placed j s' found' live'
        omega
  · exact List.pairwise_map.mpr (pairwise_own settled.sound file)
  · have turns : w.idx.turns [file] = w.idx.turnsOf file := List.flatMap_singleton ..
    rw [← turns, SymbolIndex.mem_turns settled.sound, List.mem_map]
    constructor
    · rintro ⟨live, s, member, rfl, given⟩
      obtain rfl := List.mem_singleton.mp given
      exact ⟨s, mem_own.mpr ⟨member, symOwner_eq_some.mpr ⟨live, rfl⟩⟩, rfl⟩
    · rintro ⟨s, mine, rfl⟩
      obtain ⟨member, owns⟩ := mem_own.mp mine
      obtain ⟨live, rfl⟩ := symOwner_eq_some.mp owns
      exact ⟨live, s, member, rfl, List.mem_singleton_self _⟩

/-- The snippet of a symbol is read off what the index holds of it, but for its number. -/
theorem snippet_of_symById {idx idx' : SymbolIndex} {id id' : Nat} {s : Sym}
    (known : idx.symById id = some s) (known' : idx'.symById id' = some { s with id := id' })
    (bytes : idx'.limits.snippetBytes = idx.limits.snippetBytes) (read : Bytes → Option Bytes)
    (most : Nat) : idx'.snippet read id' most = idx.snippet read id most := by
  have entry {idx : SymbolIndex} {id : Nat} {s : Sym} (known : idx.symById id = some s) :
      (if id = 0 then none else idx.syms[id - 1]?.filter (·.id ≠ 0)) = some s := by
    obtain ⟨rfl, live⟩ := id_of_symById known
    unfold SymbolIndex.symById at known
    rw [if_neg live] at known ⊢
    obtain ⟨found, -⟩ := Option.filter_eq_some_iff.mp known
    exact Option.filter_eq_some_iff.mpr ⟨found, by simpa using live⟩
  unfold SymbolIndex.snippet
  rw [entry known, entry known', bytes]

include twins

theorem turns_renumbered (files : List Bytes) :
    w'.idx.turns files = (w.idx.turns files).map (renumber w.idx w'.idx) := by
  have one (file : Bytes) :
      w'.idx.turnsOf file = (w.idx.turnsOf file).map (renumber w.idx w'.idx) := by
    rw [turnsOf_eq twins.settled, turnsOf_eq twins.settled', List.map_map]
    by_cases indexed : file ∈ w.idx.files
    · rw [own_syms_renumbered twins indexed, List.map_map]
      rfl
    · have absent : file ∉ w'.idx.files := fun member => indexed ((twins.files file).mpr member)
      rw [own_of_notMem twins.settled.sound.symsOwned indexed,
        own_of_notMem twins.settled'.sound.symsOwned absent]
      rfl
  unfold SymbolIndex.turns
  rw [List.map_flatMap]
  exact List.flatMap_congr fun file _ => one file

theorem live_of_mem_turns {files : List Bytes} {id : Nat} (member : id ∈ w.idx.turns files) :
    (w.idx.symById id).isSome := by
  obtain ⟨live, s, stored, rfl, -⟩ := (SymbolIndex.mem_turns twins.settled.sound).mp member
  exact Option.isSome_of_eq_some (symById_of_mem twins.settled.sound stored live)

theorem live_of_mem_callersOf {id caller : Nat} (calls : caller ∈ w.idx.callersOf id) :
    (w.idx.symById caller).isSome := by
  obtain ⟨attributed, d, member, live, -, rfl, -⟩ := mem_callersOf.mp calls
  exact (endpoint_fromSym twins.settled twins.kept member live).resolve_left attributed

/-- The context of a change is the same. -/
theorem contextForChange_renumbered
    (snippetBytes : w'.idx.limits.snippetBytes = w.idx.limits.snippetBytes)
    (total : w'.idx.limits.contextTotalBytes = w.idx.limits.contextTotalBytes)
    (read : Bytes → Option Bytes) (files : List Bytes) :
    w'.idx.contextForChange read files = w.idx.contextForChange read files := by
  have reached : w'.idx.reached (w'.idx.turns files) =
      (w.idx.reached (w.idx.turns files)).map (renumber w.idx w'.idx) := by
    rw [turns_renumbered twins]
    refine reach_map (injOn_renumber twins) _ (fun _ => live_of_mem_turns twins)
      (fun id _ caller => live_of_mem_callersOf twins) fun id live => ?_
    obtain ⟨s, known⟩ := Option.isSome_iff_exists.mp live
    exact callersOf_renumbered twins known
  have labelled : w'.idx.labelledContext read files =
      (w.idx.labelledContext read files).map (Prod.map (renumber w.idx w'.idx) id) := by
    unfold SymbolIndex.labelledContext
    rw [reached, total]
    refine ration_map _ (fun id member => ?_) _
    have live : (w.idx.symById id).isSome := by
      obtain turn | ⟨turn, -, calls⟩ := mem_reach.mp member
      · exact live_of_mem_turns twins turn
      · exact live_of_mem_callersOf twins calls
    obtain ⟨s, known⟩ := Option.isSome_iff_exists.mp live
    exact snippet_of_symById known (symById_renumber twins known) snippetBytes read 0
  rw [SymbolIndex.contextForChange_eq, SymbolIndex.contextForChange_eq, labelled, List.map_map]
  rfl

end Renumbered

/-! ## Runs -/

/-- The caps are as they were given, but for that of the cache. -/
def CapsOf (limits : IndexLimits) (w : Session) : Prop :=
  w.idx.limits = { limits with cacheFiles := w.idx.limits.cacheFiles }

theorem CapsOf.step {limits : IndexLimits} {w w' : Session} (caps : CapsOf limits w) {op : Op}
    (stepped : sessionStep w op = some w') : CapsOf limits w' := by
  obtain ⟨next, done, rfl⟩ := Option.map_eq_some_iff.mp stepped
  unfold CapsOf at caps ⊢
  exact (limits_step done).trans (by rw [caps])

theorem caps_session {limits : IndexLimits} {ops : List Op} {w : Session}
    (ran : sessionRun limits ops = some w) : CapsOf limits w :=
  Transition.run_always (fun caps stepped => caps.step stepped)
    (show CapsOf limits (.empty limits) from rfl) ran

/-- **An index answers by the texts it was last given, and not by how it came to them.**  Two runs
that end with the same files, each as last parsed from the same text, differ in the numbers of
their symbols only, and give the same context for every change. -/
theorem index_forgets_history {limits : IndexLimits} {ops ops' : List Op} {w w' : Session}
    (ran : sessionRun limits ops = some w) (ran' : sessionRun limits ops' = some w')
    (same : SameTexts w w') (kept : IndexedKept w) :
    Renumbers (renumber w.idx w'.idx) w.idx w'.idx ∧
      ∀ read files, w'.idx.contextForChange read files = w.idx.contextForChange read files := by
  have caps : _ = _ := caps_session ran
  have caps' : _ = _ := caps_session ran'
  have twins : Twins w w' :=
    { toSameTexts := same
      settled := settled_session ran
      settled' := settled_session ran'
      maxSyms := by rw [caps, caps']
      maxDeps := by rw [caps, caps']
      kept := kept }
  exact ⟨renumbers twins,
    contextForChange_renumbered twins (by rw [caps, caps']) (by rw [caps, caps'])⟩


instance (w w' : Session) : Decidable (SameTexts w w') :=
  decidable_of_iff ((∀ file ∈ w.idx.files.keys, file ∈ w'.idx.files.keys) ∧
      (∀ file ∈ w'.idx.files.keys, file ∈ w.idx.files.keys) ∧
        ∀ file ∈ w.idx.files.keys, w.sources file = w'.sources file)
    ⟨fun same => ⟨fun file => ⟨same.1 file, same.2.1 file⟩, same.2.2⟩,
      fun same => ⟨fun file => (same.files file).mp, fun file => (same.files file).mpr, same.texts⟩⟩

instance (w : Session) : Decidable (IndexedKept w) :=
  inferInstanceAs (Decidable (∀ file ∈ w.idx.files.keys, ∀ text ∈ w.sources file,
    Kept w.idx.limits file text))

def callerFile : Bytes := str "int f() { }\nint g() { f(); }"

def strangerFile : Bytes := str "int h() { }"

/-- Two files, of which the first is parsed again after it was changed and changed back. -/
def parsedAgain : List Op :=
  [.extractFile (str "a.c") (some callerFile), .extractFile (str "b.c") (some strangerFile),
    .extractFile (str "a.c") (some strangerFile), .extractFile (str "a.c") (some callerFile)]

def parsedOnce : List Op :=
  [.extractFile (str "a.c") (some callerFile), .extractFile (str "b.c") (some strangerFile)]

theorem index_forgets_history_again : ∃ w w', sessionRun {} parsedAgain = some w ∧
    sessionRun {} parsedOnce = some w' ∧ w.idx.callersOf 5 = [6] ∧ w'.idx.callersOf 1 = [2] ∧
      Renumbers (renumber w.idx w'.idx) w.idx w'.idx := by
  have both : (sessionRun {} parsedAgain).any (fun w => (sessionRun {} parsedOnce).any fun w' =>
      decide (w.idx.callersOf 5 = [6] ∧ w'.idx.callersOf 1 = [2] ∧ SameTexts w w' ∧
        IndexedKept w)) = true := by decide +kernel
  obtain ⟨w, ran, second⟩ := (Option.any_eq_true _ _).mp both
  obtain ⟨w', ran', facts⟩ := (Option.any_eq_true _ _).mp second
  obtain ⟨callers, callers', same, kept⟩ := of_decide_eq_true facts
  exact ⟨w, w', ran, ran', callers, callers', (index_forgets_history ran ran' same kept).1⟩

end Opencodepp.Graph
