import Opencodepp.Graph.Symbols
import Opencodepp.Library.Ranges
import Opencodepp.Library.Keyed
import Opencodepp.Library.Transition

/-!
# The symbol index

Symbols and dependencies of all indexed files stand in two arrays that grow at the end.  A
file owns a range of each.  Removing a file overwrites its ranges with tombstones; the
array of dependencies is compacted when they dominate, and the ranges are computed again
from the runs of equal files that remain.  The parse cache is capped, and after a parse its
least recently touched file is removed.

Positions and ids are natural numbers.  What an operation reads from the disk is an argument
of it: a run of the index is a run over every history of the disk.
-/

set_option autoImplicit false

namespace Opencodepp.Graph

open Opencodepp.Core
open Opencodepp.Library

structure IndexLimits where
  snippetBytes : Nat := 4096
  contextTotalBytes : Nat := 16384
  maxSymsPerFile : Nat := 4096
  maxDepsPerFile : Nat := 8192
  cacheFiles : Nat := 256
  deriving Repr, DecidableEq

/-- The parse state of a file: its fingerprint and its ranges. -/
structure ParsedFile where
  mtime : Nat := 0
  size : Nat := 0
  symFirst : Nat
  symCount : Nat
  depFirst : Nat
  depCount : Nat
  lang : Lang
  deriving Repr, DecidableEq

def ParsedFile.symRange (pf : ParsedFile) : Ranges.Range := ⟨pf.symFirst, pf.symCount⟩

def ParsedFile.depRange (pf : ParsedFile) : Ranges.Range := ⟨pf.depFirst, pf.depCount⟩

/-- A map from texts. -/
abbrev Table (ν : Type) : Type := AList fun _ : Bytes => ν

structure SymbolIndex where
  limits : IndexLimits
  syms : List Sym
  deps : List Dep
  byName : Table (List Nat)
  files : Table ParsedFile
  touch : Table Nat
  touchClock : Nat
  version : Nat
  extractCount : Nat

namespace SymbolIndex

def empty (limits : IndexLimits) : SymbolIndex := ⟨limits, [], [], ∅, ∅, ∅, 0, 0, 0⟩

end SymbolIndex

def detectLang (file : Bytes) : Lang :=
  match file.reverse.findIdx? (· = ch '.') with
  | none => .unknown
  | some k =>
      let ext := file.drop (file.length - (k + 1))
      if ext = str ".c" then .c
      else if ext ∈ [".cpp", ".cc", ".cxx", ".hpp", ".hh", ".hxx", ".h", ".ipp"].map str then .cpp
      else if ext = str ".go" then .go
      else .unknown

/-! ## Removal -/

/-- Strike an id from the names. -/
def forgetName (byName : Table (List Nat)) (s : Sym) : Table (List Nat) :=
  if s.id = 0 then byName
  else
    match byName.lookup s.name with
    | none => byName
    | some ids =>
        let rest := ids.filter (· ≠ s.id)
        if rest = [] then byName.erase s.name else byName.insert s.name rest

/-- Record where the run of a file lies. -/
def closeRun (cur : Bytes) (runStart fin : Nat) (files : Table ParsedFile) : Table ParsedFile :=
  if cur = [] then files
  else
    match files.lookup cur with
    | none => files
    | some pf => files.insert cur { pf with depFirst := runStart, depCount := fin - runStart }

/-- Pass over the dependencies from position `i` and record every run that ends. -/
def recordRuns (cur : Bytes) (runStart i : Nat) :
    List Dep → Table ParsedFile → Table ParsedFile
  | [], files => closeRun cur runStart i files
  | d :: rest, files =>
      if d.fromFile ≠ cur then
        recordRuns d.fromFile i (i + 1) rest (closeRun cur runStart i files)
      else recordRuns cur runStart (i + 1) rest files

namespace SymbolIndex

variable (idx : SymbolIndex)

/-- Drop the tombstones of the dependencies once they make up half of a large array. -/
def maybeCompactDeps : SymbolIndex :=
  let total := idx.deps.length
  let dead := idx.deps.countP fun d => d.fromFile = []
  if total < 8192 ∨ dead * 2 < total then idx
  else
    let live := idx.deps.filter fun d => d.fromFile ≠ []
    { idx with deps := live, files := recordRuns [] 0 0 live idx.files }

/-- The index without a file, before compaction. -/
def dropFile (file : Bytes) (pf : ParsedFile) : SymbolIndex :=
  { idx with
    syms := Ranges.bury {} pf.symRange idx.syms
    deps := Ranges.bury {} pf.depRange idx.deps
    byName := ((idx.syms.drop pf.symFirst).take pf.symCount).foldl forgetName idx.byName
    files := idx.files.erase file
    touch := idx.touch.erase file
    version := idx.version + 1 }

def removeFile (file : Bytes) : SymbolIndex :=
  match idx.files.lookup file with
  | none => idx
  | some pf => (idx.dropFile file pf).maybeCompactDeps

/-! ## Indexing -/

end SymbolIndex

/-- Add an id to its name. -/
def recordName (byName : Table (List Nat)) (s : Sym) : Table (List Nat) :=
  byName.insert s.name ((byName.lookup s.name).getD [] ++ [s.id])

/-- Symbols as they enter an array of length `base`. -/
def numbered (file : Bytes) (lang : Lang) (base : Nat) (syms : List Sym) : List Sym :=
  syms.mapIdx fun i s => { s with id := base + i + 1, file, lang }

/-- The id of the first symbol of a name. -/
def nameToId (syms : List Sym) (name : Bytes) : Option Nat :=
  (syms.find? (·.name = name)).map (·.id)

/-- A dependency as it enters the array, when the symbols of its file stand from `base`. -/
def rebased (file : Bytes) (base : Nat) (syms : List Sym) (d : Dep) : Dep :=
  { d with
    fromFile := file
    fromSym := if d.fromSym ≠ 0 then d.fromSym + base else 0
    toSym := (nameToId syms d.toName).getD d.toSym }

/-- Keep the earlier of two touches; the first one stays on a tie. -/
def earlier (best : Option (Sigma fun _ : Bytes => Nat)) (entry : Sigma fun _ : Bytes => Nat) :
    Option (Sigma fun _ : Bytes => Nat) :=
  match best with
  | some old => if entry.2 < old.2 then some entry else some old
  | none => some entry

/-- The file touched longest ago. -/
def oldest (touch : Table Nat) : Option Bytes := (touch.entries.foldl earlier none).map (·.1)

namespace SymbolIndex

variable (idx : SymbolIndex)

/-- Append what was found in a file, up to the caps, and give the file its ranges. -/
def extractInto (file : Bytes) (lang : Lang) (syms : List Sym) (deps : List Dep) : SymbolIndex :=
  let base := idx.syms.length
  let newSyms := numbered file lang base (syms.take idx.limits.maxSymsPerFile)
  let newDeps := (deps.take idx.limits.maxDepsPerFile).map (rebased file base newSyms)
  { idx with
    syms := idx.syms ++ newSyms
    deps := idx.deps ++ newDeps
    byName := newSyms.foldl recordName idx.byName
    files := idx.files.insert file
      { symFirst := base, symCount := newSyms.length
        depFirst := idx.deps.length, depCount := newDeps.length, lang }
    version := idx.version + 1
    extractCount := idx.extractCount + 1 }

/-- Index a text.  There is no result when the extractor ends the process. -/
def indexText (file : Bytes) (lang : Lang) (text : Bytes) :
    Option (Except Failure Unit × SymbolIndex) :=
  match extractLang lang file text with
  | .terminated => none
  | .failed failure => some (.error failure, idx)
  | .found syms deps =>
      let cleared := if file ∈ idx.files then idx.removeFile file else idx
      some (.ok (), cleared.extractInto file lang syms deps)

def extractFile (file : Bytes) (read : Option Bytes) :
    Option (Except Failure Unit × SymbolIndex) :=
  if detectLang file = .unknown then some (.error (.of .eMissingCfg), idx)
  else
    match read with
    | none => some (.error (.of .eMissingCfg), idx)
    | some text => idx.indexText file (detectLang file) text

/-- The file to go: the one touched longest ago. -/
def victim : Option Bytes := oldest idx.touch

def evictLru : SymbolIndex :=
  if idx.files.entries.length ≤ idx.limits.cacheFiles then idx
  else
    match idx.victim with
    | some file => if file = [] then idx else idx.removeFile file
    | none => idx

def touched (file : Bytes) : SymbolIndex :=
  { idx with touch := idx.touch.insert file (idx.touchClock + 1), touchClock := idx.touchClock + 1 }

/-- Note the fingerprint that a file was parsed with. -/
def stamped (file : Bytes) (mtime size : Nat) : SymbolIndex :=
  match idx.files.lookup file with
  | none => idx
  | some pf => { idx with files := idx.files.insert file { pf with mtime, size } }

end SymbolIndex

/-- A file as it is read together with its fingerprint. -/
structure FileStat where
  text : Bytes
  mtime : Nat
  size : Nat
  deriving Repr, DecidableEq

namespace SymbolIndex

variable (idx : SymbolIndex)

/-- Whether a file is indexed under this fingerprint. -/
def unchanged (file : Bytes) (stat : FileStat) : Bool :=
  (idx.files.lookup file).any fun pf => pf.mtime = stat.mtime && pf.size = stat.size

/-- Index a file unless its fingerprint is the same; success reports the file when it was
parsed. -/
def ensureIndexed (file : Bytes) (read : Option FileStat) :
    Option (Except Failure Bytes × SymbolIndex) :=
  match read with
  | none => some (.error (.of .eMissingCfg), idx)
  | some stat =>
      if idx.unchanged file stat then some (.ok [], idx.touched file)
      else
        match idx.indexText file (detectLang file) stat.text with
        | none => none
        | some (.error failure, same) => some (.error failure, same)
        | some (.ok (), next) =>
            some (.ok file, ((next.stamped file stat.mtime stat.size).touched file).evictLru)

def setCacheCap (n : Nat) : SymbolIndex :=
  { idx with limits := { idx.limits with cacheFiles := n } }

end SymbolIndex

/-- An operation on the index, with what it reads. -/
inductive Op
  | extractFile (file : Bytes) (read : Option Bytes)
  | ensureIndexed (file : Bytes) (read : Option FileStat)
  | setCacheCap (n : Nat)
  deriving Repr, DecidableEq

/-- The index after an operation. -/
def step (idx : SymbolIndex) : Op → Option SymbolIndex
  | .extractFile file read => (idx.extractFile file read).map Prod.snd
  | .ensureIndexed file read => (idx.ensureIndexed file read).map Prod.snd
  | .setCacheCap n => some (idx.setCacheCap n)

/-- The index after operations one after the other, from an empty one. -/
def indexRun (limits : IndexLimits) (ops : List Op) : Option SymbolIndex :=
  Transition.run step (.empty limits) ops

/-! ## What an operation can do -/

theorem keys_closeRun (cur : Bytes) (runStart fin : Nat) (files : Table ParsedFile) :
    (closeRun cur runStart fin files).keys.Perm files.keys := by
  unfold closeRun
  split
  · exact List.Perm.refl _
  cases known : files.lookup cur with
  | none => exact List.Perm.refl _
  | some pf =>
      exact Table.perm_keys_insert (AList.lookup_isSome.mp (Option.isSome_of_eq_some known)) _

theorem keys_recordRuns : ∀ (rest : List Dep) (cur : Bytes) (runStart i : Nat)
    (files : Table ParsedFile), (recordRuns cur runStart i rest files).keys.Perm files.keys := by
  intro rest
  induction rest with
  | nil => exact fun cur runStart i files => keys_closeRun cur runStart i files
  | cons d rest ih =>
      intro cur runStart i files
      unfold recordRuns
      split
      · exact (ih _ _ _ _).trans (keys_closeRun cur runStart i files)
      · exact ih _ _ _ _

namespace SymbolIndex

variable (idx : SymbolIndex)

/-- Compaction moves files and drops none. -/
theorem keys_maybeCompactDeps : idx.maybeCompactDeps.files.keys.Perm idx.files.keys := by
  unfold maybeCompactDeps
  dsimp only
  split
  · exact List.Perm.refl _
  · exact keys_recordRuns _ _ _ _ _

theorem removeFile_of_notMem {file : Bytes} (absent : file ∉ idx.files) :
    idx.removeFile file = idx := by
  unfold removeFile
  rw [AList.lookup_eq_none.mpr absent]

theorem keys_removeFile (file : Bytes) :
    (idx.removeFile file).files.keys.Perm (idx.files.erase file).keys := by
  unfold removeFile
  cases known : idx.files.lookup file with
  | none => exact (Table.perm_keys_erase (AList.lookup_eq_none.mp known)).symm
  | some pf => exact keys_maybeCompactDeps _

theorem mem_removeFile {file other : Bytes} :
    other ∈ (idx.removeFile file).files ↔ other ≠ file ∧ other ∈ idx.files := by
  rw [AList.mem_keys, (idx.keys_removeFile file).mem_iff, ← AList.mem_keys, AList.mem_erase]

theorem notMem_removeFile (file : Bytes) : file ∉ (idx.removeFile file).files :=
  fun member => (idx.mem_removeFile.mp member).1 rfl

theorem mem_stamped {file other : Bytes} {mtime size : Nat} :
    other ∈ (idx.stamped file mtime size).files ↔ other ∈ idx.files := by
  unfold stamped
  cases known : idx.files.lookup file with
  | none => exact Iff.rfl
  | some pf =>
      have member : file ∈ idx.files := AList.lookup_isSome.mp (Option.isSome_of_eq_some known)
      simp only [AList.mem_insert]
      exact ⟨fun either => either.elim (fun same => same ▸ member) id, .inr⟩

/-- The index after a file was parsed. -/
def parsed (file : Bytes) (syms : List Sym) (deps : List Dep) : SymbolIndex :=
  (idx.removeFile file).extractInto file (detectLang file) syms deps

end SymbolIndex

/-- Whether the extractor gets through a text. -/
def readable (file text : Bytes) : Bool :=
  match extractLang (detectLang file) file text with
  | .found _ _ => true
  | _ => false

/-- The file that an operation parses, with its text. -/
def parsing (idx : SymbolIndex) : Op → Option (Bytes × Bytes)
  | .extractFile file (some text) => if readable file text then some (file, text) else none
  | .ensureIndexed file (some stat) =>
      if !idx.unchanged file stat && readable file stat.text then some (file, stat.text) else none
  | _ => none

theorem readable_of_found {file text : Bytes} {syms : List Sym} {deps : List Dep}
    (found : extractLang (detectLang file) file text = .found syms deps) :
    readable file text = true := by
  simp [readable, found]

/-- The index before the file just parsed may cost another one its place. -/
def SymbolIndex.refreshed (idx : SymbolIndex) (file : Bytes) (stat : FileStat) (syms : List Sym)
    (deps : List Dep) : SymbolIndex :=
  ((idx.parsed file syms deps).stamped file stat.mtime stat.size).touched file

/-- What an operation does to the index. -/
inductive Effect (idx : SymbolIndex) : Op → SymbolIndex → Prop
  | failed {op : Op} (nothing : parsing idx op = none) : Effect idx op idx
  | capped {n : Nat} : Effect idx (.setCacheCap n) (idx.setCacheCap n)
  | unchanged {file : Bytes} {stat : FileStat} (same : idx.unchanged file stat = true) :
      Effect idx (.ensureIndexed file (some stat)) (idx.touched file)
  | extracted {file text : Bytes} {syms : List Sym} {deps : List Dep}
      (found : extractLang (detectLang file) file text = .found syms deps) :
      Effect idx (.extractFile file (some text)) (idx.parsed file syms deps)
  | ensured {file : Bytes} {stat : FileStat} {syms : List Sym} {deps : List Dep}
      (found : extractLang (detectLang file) file stat.text = .found syms deps)
      (differs : idx.unchanged file stat = false) :
      Effect idx (.ensureIndexed file (some stat)) (idx.refreshed file stat syms deps).evictLru

/-- Only a file with a name has a language. -/
theorem ne_nil_of_found {file text : Bytes} {syms : List Sym} {deps : List Dep}
    (found : extractLang (detectLang file) file text = .found syms deps) : file ≠ [] := by
  rintro rfl
  cases found

theorem indexText_cases {idx next : SymbolIndex} {file text : Bytes} {result : Except Failure Unit}
    (done : idx.indexText file (detectLang file) text = some (result, next)) :
    (∃ failure, readable file text = false ∧ result = .error failure ∧ next = idx) ∨
      ∃ syms deps, extractLang (detectLang file) file text = .found syms deps ∧
        result = .ok () ∧ next = idx.parsed file syms deps := by
  unfold SymbolIndex.indexText at done
  cases extracted : extractLang (detectLang file) file text with
  | terminated => simp [extracted] at done
  | failed failure =>
      simp only [extracted, Option.some.injEq, Prod.mk.injEq] at done
      exact .inl ⟨failure, by simp [readable, extracted], done.1.symm, done.2.symm⟩
  | found syms deps =>
      simp only [extracted, Option.some.injEq, Prod.mk.injEq] at done
      refine .inr ⟨syms, deps, rfl, done.1.symm, ?_⟩
      rw [← done.2]
      split
      · rfl
      · rename_i absent
        rw [SymbolIndex.parsed, idx.removeFile_of_notMem absent]

theorem ensureIndexed_cases {idx next : SymbolIndex} {file : Bytes} {read : Option FileStat}
    {result : Except Failure Bytes} (done : idx.ensureIndexed file read = some (result, next)) :
    (∃ failure, result = .error failure ∧ parsing idx (.ensureIndexed file read) = none ∧
      next = idx) ∨
    (∃ stat, read = some stat ∧ idx.unchanged file stat = true ∧ result = .ok [] ∧
      next = idx.touched file) ∨
    ∃ stat syms deps, read = some stat ∧ idx.unchanged file stat = false ∧
      extractLang (detectLang file) file stat.text = .found syms deps ∧ result = .ok file ∧
      next = (idx.refreshed file stat syms deps).evictLru := by
  unfold SymbolIndex.ensureIndexed at done
  cases read with
  | none =>
      simp only [Option.some.injEq, Prod.mk.injEq] at done
      exact .inl ⟨_, done.1.symm, rfl, done.2.symm⟩
  | some stat =>
      dsimp only at done
      split at done
      · rename_i same
        simp only [Option.some.injEq, Prod.mk.injEq] at done
        exact .inr (.inl ⟨stat, rfl, same, done.1.symm, done.2.symm⟩)
      rename_i differs
      cases indexed : idx.indexText file (detectLang file) stat.text with
      | none => simp [indexed] at done
      | some outcome =>
          obtain ⟨outcome, reached⟩ := outcome
          obtain ⟨failure, unread, rfl, rfl⟩ | ⟨syms, deps, found, rfl, rfl⟩ :=
            indexText_cases indexed
          · simp only [indexed, Option.some.injEq, Prod.mk.injEq] at done
            exact .inl ⟨failure, done.1.symm, by simp [parsing, unread], done.2.symm⟩
          · simp only [indexed, Option.some.injEq, Prod.mk.injEq] at done
            exact .inr (.inr ⟨stat, syms, deps, rfl, by simpa using differs, found, done.1.symm,
              done.2.symm⟩)

theorem effect_of_step {idx next : SymbolIndex} {op : Op} (stepped : step idx op = some next) :
    Effect idx op next := by
  cases op with
  | setCacheCap n =>
      cases stepped
      exact .capped
  | extractFile file read =>
      obtain ⟨⟨result, _⟩, done, rfl⟩ := Option.map_eq_some_iff.mp stepped
      unfold SymbolIndex.extractFile at done
      cases read with
      | none =>
          obtain rfl : idx = _ := by
            simp only [ite_self, Option.some.injEq, Prod.mk.injEq] at done
            exact done.2
          exact .failed rfl
      | some text =>
          split at done
          · rename_i unknown
            cases done
            exact .failed (by simp [parsing, readable, unknown, extractLang])
          · obtain ⟨_, unread, _, rfl⟩ | ⟨syms, deps, found, _, rfl⟩ := indexText_cases done
            · exact .failed (by simp [parsing, unread])
            · exact .extracted found
  | ensureIndexed file read =>
      obtain ⟨⟨result, _⟩, done, rfl⟩ := Option.map_eq_some_iff.mp stepped
      obtain ⟨_, _, nothing, rfl⟩ | ⟨stat, rfl, same, _, rfl⟩ |
        ⟨stat, syms, deps, rfl, differs, found, _, rfl⟩ := ensureIndexed_cases done
      · exact .failed nothing
      · exact .unchanged same
      · exact .ensured found differs

namespace SymbolIndex

variable (idx : SymbolIndex)

@[simp] theorem limits_removeFile (file : Bytes) : (idx.removeFile file).limits = idx.limits := by
  unfold removeFile maybeCompactDeps
  split
  · rfl
  · dsimp only
    split <;> rfl

@[simp] theorem limits_parsed (file : Bytes) (syms : List Sym) (deps : List Dep) :
    (idx.parsed file syms deps).limits = idx.limits :=
  idx.limits_removeFile file

@[simp] theorem limits_stamped (file : Bytes) (mtime size : Nat) :
    (idx.stamped file mtime size).limits = idx.limits := by
  unfold stamped
  split <;> rfl

@[simp] theorem limits_touched (file : Bytes) : (idx.touched file).limits = idx.limits := rfl

@[simp] theorem limits_evictLru : idx.evictLru.limits = idx.limits := by
  unfold evictLru
  split
  · rfl
  · split
    · split
      · rfl
      · exact idx.limits_removeFile _
    · rfl

end SymbolIndex

/-- Only the cap of the cache ever changes. -/
theorem limits_step {idx next : SymbolIndex} {op : Op} (stepped : step idx op = some next) :
    next.limits = { idx.limits with cacheFiles := next.limits.cacheFiles } := by
  cases effect_of_step stepped <;> simp [SymbolIndex.setCacheCap, SymbolIndex.refreshed]

end Opencodepp.Graph
