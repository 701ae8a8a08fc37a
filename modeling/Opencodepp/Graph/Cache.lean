import Opencodepp.Graph.Endpoints

/-!
# The parse cache

After a parse one file is removed when there are more than the cap allows, the one touched
longest ago.  That keeps the cap as long as there is only one too many, and it picks the right
file as long as every file has a touch; `extract_file` gives none.  Removed dependencies are
reclaimed, removed symbols are not: the index stays bounded as long as no file with symbols is
removed.
-/

set_option autoImplicit false

namespace Opencodepp.Graph

open Opencodepp.Core
open Opencodepp.Library
open Opencodepp.Library.Ranges

/-! ## The oldest file -/

theorem foldl_earlier : ∀ (entries : List (Sigma fun _ : Bytes => Nat))
    (best : Option (Sigma fun _ : Bytes => Nat)) (e : Sigma fun _ : Bytes => Nat),
    entries.foldl earlier best = some e →
      (e ∈ entries ∨ best = some e) ∧ (∀ x ∈ entries, e.2 ≤ x.2) ∧ ∀ x ∈ best, e.2 ≤ x.2 := by
  intro entries
  induction entries with
  | nil =>
      rintro best e rfl
      simp
  | cons entry rest ih =>
      intro best e chosen
      obtain ⟨origin, least, below⟩ := ih _ e chosen
      cases best with
      | none =>
          have first : e.2 ≤ entry.2 := below entry rfl
          refine ⟨.inl ?_, by simpa using ⟨first, least⟩, by simp⟩
          obtain there | same := origin
          · exact List.mem_cons_of_mem _ there
          · exact Option.some.inj same ▸ List.mem_cons_self ..
      | some old =>
          by_cases less : entry.2 < old.2
          · simp only [earlier, less, if_true] at origin below
            have first : e.2 ≤ entry.2 := below entry rfl
            refine ⟨.inl ?_, by simpa using ⟨first, least⟩, by simp; omega⟩
            obtain there | same := origin
            · exact List.mem_cons_of_mem _ there
            · exact Option.some.inj same ▸ List.mem_cons_self ..
          · simp only [earlier, less, if_false] at origin below
            have first : e.2 ≤ old.2 := below old rfl
            refine ⟨origin.imp_left (List.mem_cons_of_mem _), ?_, by simpa using first⟩
            simp only [List.forall_mem_cons]
            exact ⟨by omega, least⟩

variable {touch : Table Nat} {file : Bytes}

theorem mem_entries_iff {n : Nat} : (⟨file, n⟩ : Sigma fun _ : Bytes => Nat) ∈ touch.entries ↔
    touch.lookup file = some n :=
  AList.mem_lookup_iff.symm

theorem lookup_of_oldest (chosen : oldest touch = some file) :
    ∃ n, touch.lookup file = some n ∧ ∀ other m, touch.lookup other = some m → n ≤ m := by
  obtain ⟨⟨_, n⟩, picked, rfl⟩ := Option.map_eq_some_iff.mp chosen
  obtain ⟨origin, least, _⟩ := foldl_earlier _ _ _ picked
  refine ⟨n, mem_entries_iff.mp (origin.resolve_right (by simp)), fun other m known => ?_⟩
  exact least _ (mem_entries_iff.mpr known)

theorem exists_oldest (member : file ∈ touch) : ∃ first, oldest touch = some first := by
  have going : ∀ (entries : List (Sigma fun _ : Bytes => Nat))
      (best : Option (Sigma fun _ : Bytes => Nat)), best ≠ none →
      entries.foldl earlier best ≠ none := by
    intro entries
    induction entries with
    | nil => exact fun _ some => some
    | cons entry rest ih =>
        intro best _
        refine ih _ ?_
        cases best with
        | none => simp [earlier]
        | some old =>
            simp only [earlier]
            split <;> simp
  obtain ⟨n, known⟩ := Option.isSome_iff_exists.mp (AList.lookup_isSome.mpr member)
  obtain ⟨first, rest, shape⟩ :=
    List.exists_cons_of_ne_nil (List.ne_nil_of_mem (mem_entries_iff.mpr known))
  refine Option.ne_none_iff_exists'.mp fun nothing => going rest (some first) (by simp) ?_
  simpa [oldest, shape, earlier] using nothing

/-! ## Touches -/

/-- Touches are of indexed files, at different times up to now. -/
structure Clocked (idx : SymbolIndex) : Prop where
  indexed : ∀ file ∈ idx.touch, file ∈ idx.files
  past : ∀ file n, idx.touch.lookup file = some n → 0 < n ∧ n ≤ idx.touchClock
  distinct : ∀ file other n, idx.touch.lookup file = some n → idx.touch.lookup other = some n →
    file = other

variable {idx : SymbolIndex}

theorem touch_maybeCompactDeps : idx.maybeCompactDeps.touch = idx.touch ∧
    idx.maybeCompactDeps.touchClock = idx.touchClock := by
  unfold SymbolIndex.maybeCompactDeps
  dsimp only
  split <;> exact ⟨rfl, rfl⟩

/-- A removed file loses its touch, the others keep theirs. -/
theorem Clocked.lookup_removeFile (clocked : Clocked idx) (file other : Bytes) :
    (idx.removeFile file).touch.lookup other =
      if other = file then none else idx.touch.lookup other := by
  unfold SymbolIndex.removeFile
  cases known : idx.files.lookup file with
  | none =>
      dsimp only
      split
      · rename_i same
        subst same
        refine AList.lookup_eq_none.mpr fun touched => ?_
        exact AList.lookup_eq_none.mp known (clocked.indexed other touched)
      · rfl
  | some pf =>
      dsimp only
      rw [touch_maybeCompactDeps.1]
      split
      · rename_i same
        exact same ▸ AList.lookup_erase ..
      · rename_i differ
        exact AList.lookup_erase_ne differ

theorem touchClock_removeFile (file : Bytes) :
    (idx.removeFile file).touchClock = idx.touchClock := by
  unfold SymbolIndex.removeFile
  split
  · rfl
  · exact touch_maybeCompactDeps.2

theorem mem_touch_iff {file : Bytes} : file ∈ idx.touch ↔ ∃ n, idx.touch.lookup file = some n := by
  rw [← AList.lookup_isSome, Option.isSome_iff_exists]

/-- Fewer touches of fewer files. -/
theorem Clocked.mono {next : SymbolIndex} (clocked : Clocked idx)
    (fewer : ∀ file n, next.touch.lookup file = some n →
      idx.touch.lookup file = some n ∧ file ∈ next.files)
    (clock : next.touchClock = idx.touchClock) : Clocked next where
  indexed file touched := by
    obtain ⟨n, known⟩ := mem_touch_iff.mp touched
    exact (fewer file n known).2
  past file n known := clock ▸ clocked.past file n (fewer file n known).1
  distinct file other n known known' :=
    clocked.distinct file other n (fewer file n known).1 (fewer other n known').1

theorem Clocked.removeFile (clocked : Clocked idx) (file : Bytes) :
    Clocked (idx.removeFile file) := by
  refine clocked.mono (fun other n known => ?_) (touchClock_removeFile file)
  rw [clocked.lookup_removeFile] at known
  split at known
  · cases known
  · rename_i differ
    have touched := mem_touch_iff.mpr ⟨n, known⟩
    exact ⟨known, idx.mem_removeFile.mpr ⟨differ, clocked.indexed other touched⟩⟩

theorem Clocked.parsed (clocked : Clocked idx) (file : Bytes) (syms : List Sym) (deps : List Dep) :
    Clocked (idx.parsed file syms deps) := by
  have removed := clocked.removeFile file
  refine removed.mono (fun other n known => ⟨known, ?_⟩) rfl
  exact (AList.mem_insert _).mpr (.inr (removed.indexed other (mem_touch_iff.mpr ⟨n, known⟩)))

theorem touch_stamped {file : Bytes} {mtime size : Nat} :
    (idx.stamped file mtime size).touch = idx.touch ∧
      (idx.stamped file mtime size).touchClock = idx.touchClock := by
  unfold SymbolIndex.stamped
  split <;> exact ⟨rfl, rfl⟩

theorem Clocked.stamped (clocked : Clocked idx) (file : Bytes) (mtime size : Nat) :
    Clocked (idx.stamped file mtime size) := by
  refine clocked.mono (fun other n known => ?_) touch_stamped.2
  rw [touch_stamped.1] at known
  exact ⟨known, idx.mem_stamped.mpr (clocked.indexed other (mem_touch_iff.mpr ⟨n, known⟩))⟩

theorem lookup_touched (file other : Bytes) :
    (idx.touched file).touch.lookup other =
      if other = file then some (idx.touchClock + 1) else idx.touch.lookup other := by
  split
  · rename_i same
    exact same ▸ AList.lookup_insert ..
  · rename_i differ
    exact AList.lookup_insert_ne differ

theorem Clocked.touched (clocked : Clocked idx) {file : Bytes} (indexed : file ∈ idx.files) :
    Clocked (idx.touched file) where
  indexed other touched := by
    obtain rfl | before := (AList.mem_insert _).mp touched
    · exact indexed
    · exact clocked.indexed other before
  past other n known := by
    rw [lookup_touched] at known
    change 0 < n ∧ n ≤ idx.touchClock + 1
    split at known
    · cases known
      omega
    · have := clocked.past other n known
      omega
  distinct first second n known known' := by
    rw [lookup_touched] at known known'
    split at known <;> split at known'
    · rename_i same same'
      exact same.trans same'.symm
    · cases known
      have := (clocked.past second _ known').2
      omega
    · cases known'
      have := (clocked.past first _ known).2
      omega
    · exact clocked.distinct first second n known known'

theorem Clocked.evictLru (clocked : Clocked idx) : Clocked idx.evictLru := by
  unfold SymbolIndex.evictLru
  split
  · exact clocked
  · split
    · split
      · exact clocked
      · exact clocked.removeFile _
    · exact clocked

theorem mem_files_refreshed {file other : Bytes} {stat : FileStat} {syms : List Sym}
    {deps : List Dep} :
    other ∈ (idx.refreshed file stat syms deps).files ↔ other = file ∨ other ∈ idx.files := by
  have parsed : other ∈ (idx.parsed file syms deps).files ↔
      other = file ∨ other ∈ (idx.removeFile file).files := AList.mem_insert _
  refine (SymbolIndex.mem_stamped _).trans (parsed.trans ?_)
  rw [idx.mem_removeFile]
  by_cases same : other = file <;> simp [same]

theorem Clocked.refreshed (clocked : Clocked idx) (file : Bytes) (stat : FileStat)
    (syms : List Sym) (deps : List Dep) : Clocked (idx.refreshed file stat syms deps) :=
  ((clocked.parsed file syms deps).stamped _ _ _).touched
    (mem_files_refreshed.mpr (.inl rfl))

theorem Clocked.step (clocked : Clocked idx) {op : Op} {next : SymbolIndex}
    (stepped : step idx op = some next) : Clocked next := by
  cases effect_of_step stepped with
  | failed _ => exact clocked
  | capped => exact ⟨clocked.indexed, clocked.past, clocked.distinct⟩
  | @unchanged file stat same =>
      refine clocked.touched (AList.lookup_isSome.mp ?_)
      obtain ⟨pf, known, _⟩ := (Option.any_eq_true _ _).mp same
      exact Option.isSome_of_eq_some known
  | extracted _ => exact clocked.parsed _ _ _
  | ensured _ _ => exact (clocked.refreshed _ _ _ _).evictLru

theorem Clocked.empty (limits : IndexLimits) : Clocked (.empty limits) where
  indexed file touched := absurd touched (AList.notMem_empty file)
  past file n known := by cases known
  distinct file other n known := by cases known

/-! ## Eviction -/

/-- The indexed files besides one. -/
def others (idx : SymbolIndex) (file : Bytes) : List Bytes := (idx.files.erase file).keys

theorem mem_others {file other : Bytes} : other ∈ others idx file ↔ other ≠ file ∧ other ∈ idx.files := by
  rw [others, ← AList.mem_keys, AList.mem_erase]

theorem perm_keys_parsed (file : Bytes) (syms : List Sym) (deps : List Dep) :
    (idx.parsed file syms deps).files.keys.Perm (file :: others idx file) := by
  refine (List.Perm.of_eq (Table.keys_insert_of_notMem (idx.notMem_removeFile file) _)).trans ?_
  exact (idx.keys_removeFile file).cons file

theorem perm_keys_refreshed (file : Bytes) (stat : FileStat) (syms : List Sym) (deps : List Dep) :
    (idx.refreshed file stat syms deps).files.keys.Perm (file :: others idx file) := by
  refine List.Perm.trans ?_ (perm_keys_parsed file syms deps)
  change ((idx.parsed file syms deps).stamped file stat.mtime stat.size).files.keys.Perm _
  unfold SymbolIndex.stamped
  cases known : (idx.parsed file syms deps).files.lookup file with
  | none => exact List.Perm.refl _
  | some pf =>
      exact Table.perm_keys_insert (AList.lookup_isSome.mp (Option.isSome_of_eq_some known)) _

theorem length_refreshed (file : Bytes) (stat : FileStat) (syms : List Sym) (deps : List Dep) :
    (idx.refreshed file stat syms deps).files.keys.length = (others idx file).length + 1 :=
  (perm_keys_refreshed file stat syms deps).length_eq

@[simp] theorem limits_refreshed (file : Bytes) (stat : FileStat) (syms : List Sym)
    (deps : List Dep) : (idx.refreshed file stat syms deps).limits = idx.limits := by
  simp [SymbolIndex.refreshed]

theorem Clocked.lookup_refreshed (clocked : Clocked idx) {file other : Bytes} {stat : FileStat}
    {syms : List Sym} {deps : List Dep} :
    (idx.refreshed file stat syms deps).touch.lookup other =
      if other = file then some (idx.touchClock + 1) else idx.touch.lookup other := by
  rw [SymbolIndex.refreshed, lookup_touched, touch_stamped.1, touch_stamped.2]
  have clock : (idx.parsed file syms deps).touchClock = idx.touchClock := touchClock_removeFile file
  have touch : (idx.parsed file syms deps).touch.lookup other =
      if other = file then none else idx.touch.lookup other := clocked.lookup_removeFile file other
  rw [clock, touch]
  split <;> rfl

/-- One file goes when there are too many: the one touched longest ago. -/
theorem evictLru_cases (named : [] ∉ idx.files) (clocked : Clocked idx) {file : Bytes}
    (touched : file ∈ idx.touch) :
    (idx.files.keys.length ≤ idx.limits.cacheFiles ∧ idx.evictLru = idx) ∨
      (idx.limits.cacheFiles < idx.files.keys.length ∧
        ∃ gone, oldest idx.touch = some gone ∧ idx.evictLru = idx.removeFile gone) := by
  have count : idx.files.entries.length = idx.files.keys.length := by
    simp [AList.keys, List.keys]
  unfold SymbolIndex.evictLru
  rw [count]
  by_cases fits : idx.files.keys.length ≤ idx.limits.cacheFiles
  · exact .inl ⟨fits, if_pos fits⟩
  obtain ⟨gone, chosen⟩ := exists_oldest touched
  obtain ⟨n, known, _⟩ := lookup_of_oldest chosen
  have indexed := clocked.indexed gone (mem_touch_iff.mpr ⟨n, known⟩)
  have proper : gone ≠ [] := fun nothing => named (nothing ▸ indexed)
  refine .inr ⟨by omega, gone, chosen, ?_⟩
  rw [if_neg fits, SymbolIndex.victim, chosen]
  exact if_neg proper

/-- The time of the last touch; what was never touched was touched before everything else. -/
def lastTouch (touch : Table Nat) (file : Bytes) : Nat := (touch.lookup file).getD 0

/-- What `ensure_indexed` of a file promises: the cap is kept, the file is indexed, and what was
evicted was touched less recently than everything that stays. -/
structure CacheContract (idx next : SymbolIndex) (file : Bytes) : Prop where
  fits : next.files.keys.length ≤ next.limits.cacheFiles
  kept : file ∈ next.files
  leastRecent : ∀ gone ∈ idx.files, gone ∉ next.files → ∀ stays ∈ next.files,
    lastTouch idx.touch gone < lastTouch next.touch stays

/-- A parsed file is at most one too many, and when it is, every other one has a touch.  A file
that is not parsed is not one too many. -/
def Roomy (idx : SymbolIndex) (file : Bytes) : Option FileStat → Prop
  | none => True
  | some stat =>
      if idx.unchanged file stat then idx.files.keys.length ≤ idx.limits.cacheFiles
      else (others idx file).length ≤ idx.limits.cacheFiles ∧
        ((others idx file).length = idx.limits.cacheFiles →
          ∀ other ∈ others idx file, other ∈ idx.touch)

instance (idx : SymbolIndex) (file : Bytes) : ∀ read, Decidable (Roomy idx file read)
  | none => isTrue trivial
  | some stat =>
      inferInstanceAs (Decidable
        (if idx.unchanged file stat then idx.files.keys.length ≤ idx.limits.cacheFiles
        else (others idx file).length ≤ idx.limits.cacheFiles ∧
          ((others idx file).length = idx.limits.cacheFiles →
            ∀ other ∈ others idx file, other ∈ idx.touch)))

section Evicting

variable (clocked : Clocked idx) (named : [] ∉ idx.files) {file : Bytes} (proper : file ≠ [])
  (stat : FileStat) (syms : List Sym) (deps : List Dep)

include clocked named proper

theorem nil_notMem_refreshed : [] ∉ (idx.refreshed file stat syms deps).files := by
  rw [mem_files_refreshed, not_or]
  exact ⟨proper.symm, named⟩

theorem touched_refreshed : file ∈ (idx.refreshed file stat syms deps).touch := by
  rw [mem_touch_iff]
  exact ⟨_, by rw [clocked.lookup_refreshed, if_pos rfl]⟩

/-- Nothing goes. -/
theorem contract_of_room (room : (others idx file).length < idx.limits.cacheFiles) :
    CacheContract idx (idx.refreshed file stat syms deps).evictLru file := by
  obtain ⟨fits, same⟩ | ⟨full, _⟩ :=
    evictLru_cases (nil_notMem_refreshed clocked named proper stat syms deps) (clocked.refreshed file stat syms deps)
      (touched_refreshed clocked named proper stat syms deps)
  · rw [same]
    refine ⟨fits, mem_files_refreshed.mpr (.inl rfl), fun gone before after => ?_⟩
    exact absurd (mem_files_refreshed.mpr (.inr before)) after
  · rw [length_refreshed, limits_refreshed] at full
    omega

/-- One file goes: it was touched, not later than any other one, and the number of files is what
it was without the file just parsed. -/
theorem evicts_of_full (full : idx.limits.cacheFiles ≤ (others idx file).length) :
    ∃ gone n, (idx.refreshed file stat syms deps).evictLru =
        (idx.refreshed file stat syms deps).removeFile gone ∧
      (gone = file ∨ gone ∈ idx.files) ∧
      (idx.refreshed file stat syms deps).touch.lookup gone = some n ∧
      (∀ other m, (idx.refreshed file stat syms deps).touch.lookup other = some m → n ≤ m) ∧
      (idx.refreshed file stat syms deps).evictLru.files.keys.length = (others idx file).length := by
  have clocked' := clocked.refreshed file stat syms deps
  obtain ⟨fits, _⟩ | ⟨_, gone, chosen, evicted⟩ :=
    evictLru_cases (nil_notMem_refreshed clocked named proper stat syms deps) clocked'
      (touched_refreshed clocked named proper stat syms deps)
  · rw [length_refreshed, limits_refreshed] at fits
    omega
  · obtain ⟨n, known, least⟩ := lookup_of_oldest chosen
    have indexed := clocked'.indexed gone (mem_touch_iff.mpr ⟨n, known⟩)
    refine ⟨gone, n, evicted, mem_files_refreshed.mp indexed, known, least, ?_⟩
    have dropped := Table.length_keys_erase indexed
    rw [evicted, ((idx.refreshed file stat syms deps).keys_removeFile gone).length_eq]
    rw [length_refreshed] at dropped
    omega

/-- With one file too many, the contract asks for a touch of every other one. -/
theorem contract_iff_of_full (positive : 1 ≤ idx.limits.cacheFiles)
    (full : idx.limits.cacheFiles ≤ (others idx file).length) :
    CacheContract idx (idx.refreshed file stat syms deps).evictLru file ↔
      (others idx file).length = idx.limits.cacheFiles ∧
        ∀ other ∈ others idx file, other ∈ idx.touch := by
  obtain ⟨gone, n, evicted, origin, known, least, count⟩ :=
    evicts_of_full clocked named proper stat syms deps full
  have clocked' := clocked.refreshed file stat syms deps
  have limits : (idx.refreshed file stat syms deps).evictLru.limits = idx.limits := by simp
  have remains : ∀ other, other ∈ (idx.refreshed file stat syms deps).evictLru.files ↔
      other ≠ gone ∧ (other = file ∨ other ∈ idx.files) := by
    intro other
    rw [evicted, SymbolIndex.mem_removeFile, mem_files_refreshed]
  have touches : ∀ other, other ≠ gone →
      (idx.refreshed file stat syms deps).evictLru.touch.lookup other =
        if other = file then some (idx.touchClock + 1) else idx.touch.lookup other := by
    intro other stays
    rw [evicted, clocked'.lookup_removeFile, if_neg stays, clocked.lookup_refreshed]
  rw [clocked.lookup_refreshed] at known
  constructor
  · intro contract
    have fits := contract.fits
    rw [count, limits] at fits
    refine ⟨by omega, fun other member => ?_⟩
    have notFile : gone ≠ file := fun same => ((remains file).mp contract.kept).1 same.symm
    rw [if_neg notFile] at known
    by_contra untouched
    obtain ⟨otherFile, indexed⟩ := mem_others.mp member
    have stays : other ≠ gone := fun same => untouched (same ▸ mem_touch_iff.mpr ⟨n, known⟩)
    have recent := contract.leastRecent gone (origin.resolve_left notFile)
      (fun still => ((remains gone).mp still).1 rfl) other ((remains other).mpr ⟨stays, .inr indexed⟩)
    rw [lastTouch, lastTouch, touches other stays, if_neg otherFile,
      AList.lookup_eq_none.mpr untouched, known] at recent
    simp at recent
  · rintro ⟨exact_, touched⟩
    obtain ⟨witness, present⟩ : ∃ other, other ∈ others idx file :=
      List.exists_mem_of_length_pos (by omega)
    obtain ⟨m, touchedAt⟩ := mem_touch_iff.mp (touched witness present)
    have early := (clocked.past witness m touchedAt).2
    have below := least witness m (by
      rw [clocked.lookup_refreshed, if_neg (mem_others.mp present).1, touchedAt])
    have notFile : gone ≠ file := by
      intro same
      rw [if_pos same] at known
      cases known
      omega
    rw [if_neg notFile] at known
    refine ⟨by rw [count, limits]; omega, (remains file).mpr ⟨notFile.symm, .inl rfl⟩,
      fun lost before after stays here => ?_⟩
    obtain rfl : lost = gone := by
      by_contra other
      exact after ((remains lost).mpr ⟨other, .inr before⟩)
    obtain ⟨differs, place⟩ := (remains stays).mp here
    rw [lastTouch, lastTouch, touches stays differs, known, Option.getD_some]
    split
    · simp
      omega
    · rename_i otherFile
      obtain ⟨k, at_⟩ := mem_touch_iff.mp
        (touched stays (mem_others.mpr ⟨otherFile, place.resolve_left otherFile⟩))
      have later := least stays k (by rw [clocked.lookup_refreshed, if_neg otherFile, at_])
      have notSame : n ≠ k := fun same => differs (clocked.distinct stays lost k at_ (same ▸ known))
      rw [at_, Option.getD_some]
      omega

end Evicting

theorem contract_iff_roomy (clocked : Clocked idx) (named : [] ∉ idx.files) {file : Bytes}
    {read : Option FileStat} {result : Bytes} {next : SymbolIndex}
    (positive : 1 ≤ idx.limits.cacheFiles)
    (done : idx.ensureIndexed file read = some (.ok result, next)) :
    CacheContract idx next file ↔ Roomy idx file read := by
  obtain ⟨_, failed, _⟩ | ⟨stat, rfl, same, _, rfl⟩ |
    ⟨stat, syms, deps, rfl, differs, found, _, rfl⟩ := ensureIndexed_cases done
  · cases failed
  · rw [Roomy, if_pos same]
    refine ⟨fun contract => contract.fits, fun fits => ⟨fits, ?_, fun _ before after => ?_⟩⟩
    · obtain ⟨pf, known, _⟩ := (Option.any_eq_true _ _).mp same
      exact AList.lookup_isSome.mp (Option.isSome_of_eq_some known)
    · exact absurd before after
  · have proper := ne_nil_of_found found
    rw [Roomy, if_neg (by simp [differs])]
    by_cases room : (others idx file).length < idx.limits.cacheFiles
    · refine iff_of_true (contract_of_room clocked named proper stat syms deps room) ?_
      exact ⟨by omega, fun full => by omega⟩
    · rw [contract_iff_of_full clocked named proper stat syms deps positive (by omega)]
      constructor
      · rintro ⟨full, touched⟩
        exact ⟨by omega, fun _ => touched⟩
      · rintro ⟨fits, touched⟩
        have full : (others idx file).length = idx.limits.cacheFiles := by omega
        exact ⟨full, touched full⟩

/-! ## Tombstones -/

/-- Entries of few owners with few entries each are few. -/
theorem countP_owned_le {α : Type} {owner : α → Option Bytes} {most : Nat} :
    ∀ {keys : List Bytes} {entries : List α},
      (∀ x ∈ entries, ∀ file, owner x = some file → file ∈ keys) →
      (∀ file ∈ keys, (own owner file entries).length ≤ most) →
      entries.countP (fun x => (owner x).isSome) ≤ keys.length * most := by
  intro keys
  induction keys with
  | nil =>
      intro entries within _
      rw [List.length_nil, Nat.zero_mul, Nat.le_zero, List.countP_eq_zero]
      intro x member owned
      obtain ⟨file, owns⟩ := Option.isSome_iff_exists.mp owned
      exact absurd (within x member file owns) List.not_mem_nil
  | cons key keys ih =>
      intro entries within few
      rw [List.countP_eq_countP_filter_add _ _ (fun x => owner x = some key), List.length_cons,
        Nat.succ_mul, Nat.add_comm]
      refine Nat.add_le_add (ih ?_ ?_) ?_
      · intro x member file owns
        obtain ⟨there, differs⟩ := List.mem_filter.mp member
        refine (List.mem_cons.mp (within x there file owns)).resolve_left ?_
        rintro rfl
        simp [owns] at differs
      · intro file member
        refine Nat.le_trans (List.Sublist.length_le ?_) (few file (List.mem_cons_of_mem _ member))
        exact List.filter_sublist.filter _
      · exact Nat.le_trans List.countP_le_length (few key (List.mem_cons_self ..))

variable {sources : Bytes → Option Bytes}

theorem liveSyms_le (sound : Sound idx) (linked : Linked idx sources) :
    idx.syms.countP (fun s => (symOwner s).isSome) ≤
      idx.files.keys.length * idx.limits.maxSymsPerFile := by
  refine countP_owned_le (mem_files_of_owned sound.symsOwned) fun file member => ?_
  obtain ⟨_, _, _, _, _, imprint⟩ := linked file member
  rw [imprint.ownSyms, numbered, List.length_mapIdx]
  exact List.length_take_le ..

theorem liveDeps_le (sound : Sound idx) (linked : Linked idx sources) :
    idx.deps.countP (fun d => (depOwner d).isSome) ≤
      idx.files.keys.length * idx.limits.maxDepsPerFile := by
  refine countP_owned_le (mem_files_of_owned sound.depsOwned) fun file member => ?_
  obtain ⟨_, _, _, _, _, imprint⟩ := linked file member
  rw [imprint.ownDeps, List.length_map]
  exact List.length_take_le ..

/-- Dead entries of the two arrays. -/
def deadSyms (idx : SymbolIndex) : Nat := idx.syms.countP fun s => (symOwner s).isNone

def deadDeps (idx : SymbolIndex) : Nat := idx.deps.countP fun d => (depOwner d).isNone

theorem length_eq_live_add_dead {α : Type} (owner : α → Option Bytes) (entries : List α) :
    entries.length =
      entries.countP (fun x => (owner x).isSome) + entries.countP fun x => (owner x).isNone := by
  rw [List.length_eq_countP_add_countP (l := entries) fun x => (owner x).isSome]
  congr 1
  refine List.countP_congr fun x _ => ?_
  cases owner x <;> simp

/-- After a compaction the tombstones are few or fewer than the live dependencies. -/
theorem deadDeps_maybeCompactDeps :
    deadDeps idx.maybeCompactDeps ≤
      8192 + idx.maybeCompactDeps.deps.countP fun d => (depOwner d).isSome := by
  have dead : ∀ deps : List Dep, (deps.countP fun d => (depOwner d).isNone) =
      deps.countP fun d => d.fromFile = [] := by
    intro deps
    refine List.countP_congr fun d _ => ?_
    by_cases none : d.fromFile = [] <;> simp [depOwner, none]
  have total := length_eq_live_add_dead depOwner idx.deps
  unfold deadDeps SymbolIndex.maybeCompactDeps
  dsimp only
  rw [dead] at total
  split
  · rename_i keeps
    rw [dead]
    omega
  · rw [dead]
    have clean : (idx.deps.filter fun d => d.fromFile ≠ []).countP (fun d => d.fromFile = []) = 0 := by
      rw [List.countP_eq_zero]
      intro d member
      simpa using (List.mem_filter.mp member).2
    dsimp only
    rw [clean]
    omega

/-- A file, if it is indexed, has no symbols in the index. -/
def SymbolFree (idx : SymbolIndex) (file : Bytes) : Prop :=
  ∀ r ∈ rangesOf ParsedFile.symRange idx.files file, r.count = 0

instance (idx : SymbolIndex) (file : Bytes) : Decidable (SymbolFree idx file) :=
  inferInstanceAs (Decidable (∀ r ∈ _, _))

theorem syms_removeFile {file : Bytes} (free : SymbolFree idx file) :
    (idx.removeFile file).syms = idx.syms := by
  have compacted : ∀ idx : SymbolIndex, idx.maybeCompactDeps.syms = idx.syms := by
    intro idx
    unfold SymbolIndex.maybeCompactDeps
    dsimp only
    split <;> rfl
  unfold SymbolIndex.removeFile
  cases known : idx.files.lookup file with
  | none => rfl
  | some pf =>
      dsimp only
      rw [compacted]
      exact bury_of_empty _ (free pf.symRange (by simp [rangesOf, known])) _

theorem deadDeps_removeFile (sound : Sound idx) (linked : Linked idx sources) (file : Bytes) :
    deadDeps (idx.removeFile file) ≤ max (deadDeps idx)
      (8192 + (idx.removeFile file).files.keys.length * idx.limits.maxDepsPerFile) := by
  have live := liveDeps_le (sound.removeFile file) (linked.removeFile sound file)
  rw [idx.limits_removeFile] at live
  unfold SymbolIndex.removeFile at live ⊢
  cases known : idx.files.lookup file with
  | none =>
      simp only [known] at live ⊢
      omega
  | some pf =>
      simp only [known] at live ⊢
      have dead : deadDeps (idx.dropFile file pf).maybeCompactDeps ≤ _ := deadDeps_maybeCompactDeps
      omega

theorem deadSyms_extractInto (file : Bytes) (lang : Lang) (syms : List Sym) (deps : List Dep) :
    deadSyms (idx.extractInto file lang syms deps) = deadSyms idx := by
  unfold deadSyms SymbolIndex.extractInto
  rw [List.countP_append, Nat.add_eq_left, List.countP_eq_zero]
  intro s member dead
  simp [symOwner_numbered s member] at dead

theorem deadDeps_extractInto {file : Bytes} (named : file ≠ []) (lang : Lang) (syms : List Sym)
    (deps : List Dep) : deadDeps (idx.extractInto file lang syms deps) = deadDeps idx := by
  unfold deadDeps SymbolIndex.extractInto
  rw [List.countP_append, Nat.add_eq_left, List.countP_eq_zero]
  intro d member dead
  simp [depOwner_rebased named d member] at dead

/-- No symbol is dead, and only so many dependencies are. -/
structure Bounded (most : Nat) (idx : SymbolIndex) : Prop where
  cap : idx.limits.cacheFiles ≤ most
  files : idx.files.keys.length ≤ most
  syms : deadSyms idx = 0
  deps : deadDeps idx ≤ 8192 + most * idx.limits.maxDepsPerFile

/-- The entries of an index with at most so many files. -/
def entriesBound (limits : IndexLimits) (most : Nat) : Nat :=
  most * limits.maxSymsPerFile + (most * limits.maxDepsPerFile +
    (8192 + most * limits.maxDepsPerFile))

/-- All entries, dead or alive. -/
def entries (idx : SymbolIndex) : Nat := idx.syms.length + idx.deps.length

theorem Bounded.entries_le {most : Nat} (bounded : Bounded most idx) (sound : Sound idx)
    (linked : Linked idx sources) : entries idx ≤ entriesBound idx.limits most := by
  have syms := liveSyms_le sound linked
  have deps := liveDeps_le sound linked
  have totalSyms := length_eq_live_add_dead symOwner idx.syms
  have totalDeps := length_eq_live_add_dead depOwner idx.deps
  have moreSyms := Nat.mul_le_mul_right idx.limits.maxSymsPerFile bounded.files
  have moreDeps := Nat.mul_le_mul_right idx.limits.maxDepsPerFile bounded.files
  have noSyms := bounded.syms
  have fewDeps := bounded.deps
  unfold deadSyms at noSyms
  unfold deadDeps at fewDeps
  unfold entries entriesBound
  omega

/-! ## Frugal runs -/

/-- Nothing of a text is kept as a symbol. -/
def Symbolless (limits : IndexLimits) (file text : Bytes) : Prop :=
  ∀ syms deps, extractLang (detectLang file) file text = .found syms deps →
    syms.take limits.maxSymsPerFile = []

instance (limits : IndexLimits) (file text : Bytes) : Decidable (Symbolless limits file text) :=
  match extracted : extractLang (detectLang file) file text with
  | .found syms _ =>
      decidable_of_iff (syms.take limits.maxSymsPerFile = []) (by
        simp only [Symbolless, extracted, Extraction.found.injEq, and_imp]
        exact ⟨fun none _ _ same _ => same ▸ none, fun none => none _ _ rfl rfl⟩)
  | .failed _ => isTrue fun _ _ found => by simp [extracted] at found
  | .terminated => isTrue fun _ _ found => by simp [extracted] at found

/-- Room for a file that is parsed: `extract_file` adds none beyond the cap, and when
`ensure_indexed` has to evict a file, then one without symbols. -/
def Spared (idx : SymbolIndex) (file text : Bytes) : Op → Prop
  | .extractFile _ _ => file ∈ idx.files ∨ (others idx file).length < idx.limits.cacheFiles
  | _ => idx.limits.cacheFiles ≤ (others idx file).length →
      match oldest (idx.touch.erase file) with
      | some gone => SymbolFree idx gone
      | none => Symbolless idx.limits file text

instance (idx : SymbolIndex) (file text : Bytes) : ∀ op, Decidable (Spared idx file text op)
  | .extractFile _ _ => inferInstanceAs (Decidable (_ ∨ _))
  | .ensureIndexed _ _ | .setCacheCap _ =>
      match chosen : oldest (idx.touch.erase file) with
      | some gone => decidable_of_iff (idx.limits.cacheFiles ≤ (others idx file).length →
          SymbolFree idx gone) (by simp only [Spared, chosen])
      | none => decidable_of_iff (idx.limits.cacheFiles ≤ (others idx file).length →
          Symbolless idx.limits file text) (by simp only [Spared, chosen])

/-- An operation drops no symbol and lets the files grow to the cap only. -/
def Frugal (idx : SymbolIndex) (op : Op) : Prop :=
  ∀ parsed ∈ parsing idx op, SymbolFree idx parsed.1 ∧ Spared idx parsed.1 parsed.2 op

instance (idx : SymbolIndex) (op : Op) : Decidable (Frugal idx op) :=
  inferInstanceAs (Decidable (∀ parsed ∈ parsing idx op, _ ∧ _))

theorem length_others_le (file : Bytes) : (others idx file).length ≤ idx.files.keys.length := by
  by_cases member : file ∈ idx.files
  · have := Table.length_keys_erase member
    unfold others
    omega
  · exact Nat.le_of_eq (Table.perm_keys_erase member).length_eq

theorem length_removeFile (file : Bytes) :
    (idx.removeFile file).files.keys.length = (others idx file).length :=
  (idx.keys_removeFile file).length_eq

/-- What a removal without loss of symbols leaves. -/
theorem bounded_removeFile {most : Nat} {file : Bytes} (sound : Sound idx)
    (linked : Linked idx sources) (free : SymbolFree idx file)
    (cap : idx.limits.cacheFiles ≤ most) (files : (others idx file).length ≤ most)
    (syms : deadSyms idx = 0) (deps : deadDeps idx ≤ 8192 + most * idx.limits.maxDepsPerFile) :
    Bounded most (idx.removeFile file) where
  cap := by simpa using cap
  files := by rw [length_removeFile]; exact files
  syms := by rw [deadSyms, syms_removeFile free, ← deadSyms, syms]
  deps := by
    have dead := deadDeps_removeFile sound linked file
    have fewer := Nat.mul_le_mul_right idx.limits.maxDepsPerFile files
    rw [length_removeFile] at dead
    rw [idx.limits_removeFile]
    omega

theorem Bounded.removeFile {most : Nat} (bounded : Bounded most idx) {file : Bytes}
    (sound : Sound idx) (linked : Linked idx sources) (free : SymbolFree idx file) :
    Bounded most (idx.removeFile file) :=
  bounded_removeFile sound linked free bounded.cap
    (Nat.le_trans (length_others_le file) bounded.files) bounded.syms bounded.deps

theorem symRanges_removeFile (sound : Sound idx) (file : Bytes) :
    rangesOf ParsedFile.symRange (idx.removeFile file).files =
      Function.update (rangesOf ParsedFile.symRange idx.files) file none := by
  unfold SymbolIndex.removeFile
  cases known : idx.files.lookup file with
  | none =>
      refine (Function.update_eq_self_iff.mpr ?_).symm
      simp [rangesOf, known]
  | some pf =>
      dsimp only
      rw [symRanges_maybeCompactDeps (sound.dropFile known)]
      exact rangesOf_erase ..

theorem symRanges_stamped (file : Bytes) (mtime size : Nat) :
    rangesOf ParsedFile.symRange (idx.stamped file mtime size).files =
      rangesOf ParsedFile.symRange idx.files := by
  unfold SymbolIndex.stamped
  cases known : idx.files.lookup file with
  | none => rfl
  | some pf => exact rangesOf_insert_same known { pf with mtime, size } rfl

/-- The symbols of the files after a parse: those of the text, and the others as before. -/
theorem symRanges_refreshed (sound : Sound idx) (file : Bytes) (stat : FileStat) (syms : List Sym)
    (deps : List Dep) :
    rangesOf ParsedFile.symRange (idx.refreshed file stat syms deps).files =
      Function.update (rangesOf ParsedFile.symRange idx.files) file
        (some ⟨(idx.removeFile file).syms.length,
          (syms.take idx.limits.maxSymsPerFile).length⟩) := by
  have parsed : rangesOf ParsedFile.symRange (idx.parsed file syms deps).files =
      Function.update (rangesOf ParsedFile.symRange (idx.removeFile file).files) file
        (some ⟨(idx.removeFile file).syms.length,
          (syms.take idx.limits.maxSymsPerFile).length⟩) := by
    refine (rangesOf_insert ..).trans ?_
    simp [ParsedFile.symRange, numbered]
  refine (symRanges_stamped file stat.mtime stat.size).trans (parsed.trans ?_)
  rw [symRanges_removeFile sound, Function.update_idem]

theorem nil_notMem_files (linked : Linked idx sources) : [] ∉ idx.files := by
  intro member
  obtain ⟨_, _, _, _, _, imprint⟩ := linked [] member
  exact ne_nil_of_found imprint.found rfl

theorem dead_parsed {file : Bytes} (named : file ≠ []) (syms : List Sym) (deps : List Dep) :
    deadSyms (idx.parsed file syms deps) = deadSyms (idx.removeFile file) ∧
      deadDeps (idx.parsed file syms deps) = deadDeps (idx.removeFile file) :=
  ⟨deadSyms_extractInto .., deadDeps_extractInto named ..⟩

theorem dead_refreshed {file : Bytes} (named : file ≠ []) (stat : FileStat) (syms : List Sym)
    (deps : List Dep) :
    deadSyms (idx.refreshed file stat syms deps) = deadSyms (idx.removeFile file) ∧
      deadDeps (idx.refreshed file stat syms deps) = deadDeps (idx.removeFile file) := by
  have stamped : ∀ idx : SymbolIndex,
      deadSyms (idx.stamped file stat.mtime stat.size) = deadSyms idx ∧
        deadDeps (idx.stamped file stat.mtime stat.size) = deadDeps idx := by
    intro idx
    unfold SymbolIndex.stamped
    split <;> exact ⟨rfl, rfl⟩
  obtain ⟨syms', deps'⟩ := @dead_parsed idx _ named syms deps
  obtain ⟨syms'', deps''⟩ := stamped (idx.parsed file syms deps)
  exact ⟨syms''.trans syms', deps''.trans deps'⟩

theorem Bounded.parsed {most : Nat} (bounded : Bounded most idx) {file : Bytes}
    (sound : Sound idx) (linked : Linked idx sources) (free : SymbolFree idx file)
    (named : file ≠ []) (room : (others idx file).length + 1 ≤ most) (syms : List Sym)
    (deps : List Dep) : Bounded most (idx.parsed file syms deps) where
  cap := by simpa using bounded.cap
  files := by
    rw [(perm_keys_parsed file syms deps).length_eq]
    exact room
  syms := by rw [(dead_parsed named syms deps).1, (bounded.removeFile sound linked free).syms]
  deps := by
    have removed := (bounded.removeFile sound linked free).deps
    rw [(dead_parsed named syms deps).2]
    simpa using removed

/-- The file to go after a parse is the oldest of the others, or the parsed one when no other has
a touch. -/
theorem oldest_of_least (clocked : Clocked idx) {file gone : Bytes} {n : Nat}
    (known : (if gone = file then some (idx.touchClock + 1) else idx.touch.lookup gone) = some n)
    (least : ∀ other m, (if other = file then some (idx.touchClock + 1)
      else idx.touch.lookup other) = some m → n ≤ m) :
    (gone = file ∧ oldest (idx.touch.erase file) = none) ∨
      (gone ≠ file ∧ oldest (idx.touch.erase file) = some gone) := by
  have among : ∀ other m, (idx.touch.erase file).lookup other = some m →
      other ≠ file ∧ idx.touch.lookup other = some m := by
    intro other m there
    have differs : other ≠ file := by
      rintro rfl
      rw [AList.lookup_erase] at there
      cases there
    exact ⟨differs, by rw [← there, AList.lookup_erase_ne differs]⟩
  by_cases same : gone = file
  · refine .inl ⟨same, ?_⟩
    rw [if_pos same, Option.some.injEq] at known
    cases chosen : oldest (idx.touch.erase file) with
    | none => rfl
    | some first =>
        obtain ⟨m, there, _⟩ := lookup_of_oldest chosen
        obtain ⟨differs, there⟩ := among first m there
        have late := least first m (by rw [if_neg differs, there])
        have early := (clocked.past first m there).2
        omega
  · refine .inr ⟨same, ?_⟩
    rw [if_neg same] at known
    have there : (idx.touch.erase file).lookup gone = some n := by
      rw [AList.lookup_erase_ne same, known]
    obtain ⟨first, chosen⟩ :=
      exists_oldest (AList.lookup_isSome.mp (Option.isSome_of_eq_some there))
    obtain ⟨m, place, before⟩ := lookup_of_oldest chosen
    obtain ⟨differs, place⟩ := among first m place
    have late := least first m (by rw [if_neg differs, place])
    have early := before gone n there
    obtain rfl : n = m := by omega
    rw [chosen, clocked.distinct first gone n place known]

section Refreshing

variable {most : Nat} (bounded : Bounded most idx) (sound : Sound idx)
  (linked : Linked idx sources) {file : Bytes} {stat : FileStat} {syms : List Sym}
  {deps : List Dep} (found : extractLang (detectLang file) file stat.text = .found syms deps)
  (free : SymbolFree idx file)

include bounded sound linked found free

/-- No file goes. -/
theorem Bounded.refreshed (room : (others idx file).length + 1 ≤ most) :
    Bounded most (idx.refreshed file stat syms deps) where
  cap := by simpa using bounded.cap
  files := by
    rw [length_refreshed]
    exact room
  syms := by
    rw [(dead_refreshed (ne_nil_of_found found) stat syms deps).1]
    exact (bounded.removeFile sound linked free).syms
  deps := by
    have removed := (bounded.removeFile sound linked free).deps
    rw [(dead_refreshed (ne_nil_of_found found) stat syms deps).2]
    simpa using removed

/-- A file without symbols goes. -/
theorem bounded_evicted {gone : Bytes}
    (lost : SymbolFree (idx.refreshed file stat syms deps) gone)
    (count : ((idx.refreshed file stat syms deps).removeFile gone).files.keys.length ≤ most) :
    Bounded most ((idx.refreshed file stat syms deps).removeFile gone) := by
  have named := ne_nil_of_found found
  have removed := bounded.removeFile sound linked free
  have sound' : Sound (idx.refreshed file stat syms deps) :=
    ((sound.parsed named syms deps).stamped _ _ _).touched _
  have linked' : Linked (idx.refreshed file stat syms deps)
      (Function.update sources file (some stat.text)) :=
    ((linked.parsed sound found).stamped _ _ _).touched _
  obtain ⟨noSyms, fewDeps⟩ := @dead_refreshed idx _ named stat syms deps
  refine bounded_removeFile sound' linked' lost ?_ ?_ ?_ ?_
  · simpa using bounded.cap
  · rwa [length_removeFile] at count
  · rw [noSyms, removed.syms]
  · rw [fewDeps]
    simpa using removed.deps

/-- Whatever goes has no symbols. -/
theorem Bounded.evictLru (clocked : Clocked idx)
    (cheap : idx.limits.cacheFiles ≤ (others idx file).length →
      match oldest (idx.touch.erase file) with
      | some gone => SymbolFree idx gone
      | none => Symbolless idx.limits file stat.text) :
    Bounded most (idx.refreshed file stat syms deps).evictLru := by
  have named := nil_notMem_files linked
  have proper := ne_nil_of_found found
  by_cases room : (others idx file).length < idx.limits.cacheFiles
  · obtain ⟨_, same⟩ | ⟨full, _⟩ :=
      evictLru_cases (nil_notMem_refreshed clocked named proper stat syms deps)
        (clocked.refreshed file stat syms deps)
        (touched_refreshed clocked named proper stat syms deps)
    · rw [same]
      have cap := bounded.cap
      exact bounded.refreshed sound linked found free (by omega)
    · rw [length_refreshed, limits_refreshed] at full
      omega
  · have full : idx.limits.cacheFiles ≤ (others idx file).length := by omega
    obtain ⟨gone, n, evicted, _, known, least, count⟩ :=
      evicts_of_full clocked named proper stat syms deps full
    have few := Nat.le_trans (@length_others_le idx file) bounded.files
    rw [← count, evicted] at few
    simp only [clocked.lookup_refreshed] at known least
    rw [evicted]
    refine bounded_evicted bounded sound linked found free ?_ few
    unfold SymbolFree
    rw [symRanges_refreshed sound]
    have cheap := cheap full
    obtain ⟨rfl, none⟩ | ⟨other, chosen⟩ := oldest_of_least clocked known least
    · rw [none] at cheap
      simp [cheap syms deps found]
    · rw [chosen] at cheap
      rw [Function.update_of_ne other]
      exact cheap

end Refreshing

/-- The cap that an operation sets is not above a bound. -/
def capsWithin (most : Nat) : Op → Prop
  | .setCacheCap n => n ≤ most
  | _ => True

theorem Bounded.step {most : Nat} (bounded : Bounded most idx) (sound : Sound idx)
    (linked : Linked idx sources) (clocked : Clocked idx) {op : Op} (frugal : Frugal idx op)
    (within : capsWithin most op) {next : SymbolIndex} (stepped : step idx op = some next) :
    Bounded most next := by
  cases effect_of_step stepped with
  | failed _ => exact bounded
  | capped => exact ⟨within, bounded.files, bounded.syms, bounded.deps⟩
  | unchanged _ => exact ⟨bounded.cap, bounded.files, bounded.syms, bounded.deps⟩
  | @extracted file text syms deps found =>
      obtain ⟨free, room⟩ := frugal (file, text) (by simp [parsing, readable_of_found found])
      have cap := bounded.cap
      have files := bounded.files
      refine bounded.parsed sound linked free (ne_nil_of_found found) ?_ syms deps
      obtain known | room := room
      · have := Table.length_keys_erase known
        unfold others
        omega
      · omega
  | @ensured file stat syms deps found differs =>
      obtain ⟨free, cheap⟩ :=
        frugal (file, stat.text) (by simp [parsing, readable_of_found found, differs])
      exact bounded.evictLru sound linked found free clocked cheap

theorem bounded_run {most : Nat} : ∀ {ops : List Op} {w : Session} {idx : SymbolIndex},
    Settled w → Clocked w.idx → Bounded most w.idx → (∀ op ∈ ops, capsWithin most op) →
    Transition.Meets step Frugal w.idx ops → Transition.run step w.idx ops = some idx →
    entries idx ≤ entriesBound w.idx.limits most := by
  intro ops
  induction ops with
  | nil =>
      intro w idx settled _ bounded _ _ ran
      cases ran
      exact bounded.entries_le settled.sound settled.linked
  | cons op rest ih =>
      intro w idx settled clocked bounded within meets ran
      obtain ⟨next, stepped, ran⟩ := Option.bind_eq_some_iff.mp ran
      have done : sessionStep w op = some ⟨next, sourcesAfter w op⟩ := by
        simp [sessionStep, stepped]
      have bounded' := bounded.step settled.sound settled.linked clocked meets.1
        (within op (List.mem_cons_self ..)) stepped
      have few := ih (settled.step done) (clocked.step stepped) bounded'
        (fun op later => within op (List.mem_cons_of_mem _ later)) (meets.2 next stepped) ran
      dsimp only at few
      rw [limits_step stepped] at few
      exact few

theorem clocked_run {limits : IndexLimits} {ops : List Op} (ran : indexRun limits ops = some idx) :
    Clocked idx :=
  Transition.run_always (fun clocked stepped => clocked.step stepped) (Clocked.empty limits) ran

/-- **The cache keeps its contract when at most the parsed file is too many and the others have a
touch, and it stays bounded as long as no symbol is dropped.** -/
theorem cache_of_frugal {limits : IndexLimits} {ops : List Op}
    (ran : indexRun limits ops = some idx) :
    (∀ file read result next, 1 ≤ idx.limits.cacheFiles →
      idx.ensureIndexed file read = some (.ok result, next) →
      (CacheContract idx next file ↔ Roomy idx file read)) ∧
    (∀ most, limits.cacheFiles ≤ most → (∀ op ∈ ops, capsWithin most op) →
      Transition.Meets step Frugal (.empty limits) ops → entries idx ≤ entriesBound limits most) := by
  obtain ⟨_, settled⟩ := settled_run ran
  constructor
  · intro file read result next positive done
    exact contract_iff_roomy (clocked_run ran) (nil_notMem_files settled.linked) positive done
  · intro most cap within meets
    have start : Bounded most (.empty limits) := ⟨cap, Nat.zero_le _, rfl, Nat.zero_le _⟩
    exact bounded_run (Settled.empty limits) (Clocked.empty limits) start within meets ran

/-- A file without symbols, and then one with a function. -/
def plainThenFunction : List Op :=
  [.ensureIndexed (str "a.c") (some ⟨str "#include <b.h>", 1, 14⟩),
    .ensureIndexed (str "b.c") (some ⟨str "int f() { }", 1, 11⟩)]

theorem cache_of_frugal_evicting : ∃ idx,
    indexRun { cacheFiles := 1 } plainThenFunction = some idx ∧ idx.files.keys = [str "b.c"] ∧
      entries idx ≤ entriesBound { cacheFiles := 1 } 1 := by
  obtain ⟨idx, ran, kept⟩ :=
    (Option.any_eq_true (fun idx : SymbolIndex => idx.files.keys == [str "b.c"]) _).mp
      (show (indexRun { cacheFiles := 1 } plainThenFunction).any _ = true by decide +kernel)
  refine ⟨idx, ran, by simpa using kept, (cache_of_frugal ran).2 1 (Nat.le_refl 1) ?_ ?_⟩
  · simp [plainThenFunction, capsWithin]
  · decide +kernel

/-- Burying symbols frees no place. -/
theorem length_syms_removeFile (file : Bytes) :
    (idx.removeFile file).syms.length = idx.syms.length := by
  unfold SymbolIndex.removeFile SymbolIndex.maybeCompactDeps
  split
  · rfl
  · dsimp only
    split <;> exact List.length_mapIdx

/-- The same file with one function, parsed once more. -/
def parseAgain : Op := .extractFile (str "a.c") (some (str "int f() { }"))

theorem step_parseAgain (room : 1 ≤ idx.limits.maxSymsPerFile) :
    ∃ next, step idx parseAgain = some next ∧ 1 ≤ next.limits.maxSymsPerFile ∧
      next.syms.length = idx.syms.length + 1 := by
  obtain ⟨s, deps, found⟩ : ∃ s deps, extractLang (detectLang (str "a.c")) (str "a.c")
      (str "int f() { }") = .found [s] deps := ⟨_, _, rfl⟩
  have known : detectLang (str "a.c") ≠ .unknown := by decide
  have total : ∃ next, step idx parseAgain = some next := by
    simp [step, parseAgain, SymbolIndex.extractFile, SymbolIndex.indexText, known, found]
  obtain ⟨next, stepped⟩ := total
  refine ⟨next, stepped, ?_⟩
  cases effect_of_step stepped with
  | failed nothing => simp [parseAgain, parsing, readable_of_found found] at nothing
  | extracted found' =>
      cases found.symm.trans found'
      refine ⟨by simpa using room, ?_⟩
      simp only [SymbolIndex.parsed, SymbolIndex.extractInto, numbered]
      rw [List.length_append, length_syms_removeFile, List.length_mapIdx, idx.limits_removeFile,
        List.length_take, Nat.min_eq_right (by simpa using room)]
      rfl

theorem run_parseAgain : ∀ (n : Nat) {idx : SymbolIndex}, 1 ≤ idx.limits.maxSymsPerFile →
    ∃ next, Transition.run step idx (List.replicate n parseAgain) = some next ∧
      next.syms.length = idx.syms.length + n := by
  intro n
  induction n with
  | zero => exact fun {idx} _ => ⟨idx, rfl, rfl⟩
  | succ n ih =>
      intro idx room
      obtain ⟨next, stepped, room, length⟩ := step_parseAgain room
      obtain ⟨last, ran, total⟩ := ih room
      refine ⟨last, ?_, by omega⟩
      rw [List.replicate_succ, Transition.run, stepped]
      exact ran

/-- A file of `extract_file` has no touch, and so the file that is asked for next goes in its
place; and every parse of a file with a symbol leaves another dead one. -/
theorem cache_fails :
    (¬ ∀ limits ops idx file read result next, indexRun limits ops = some idx →
      1 ≤ idx.limits.cacheFiles → idx.ensureIndexed file read = some (.ok result, next) →
      CacheContract idx next file) ∧
    ¬ ∃ bound, ∀ ops idx, indexRun {} ops = some idx → entries idx ≤ bound := by
  constructor
  · intro claim
    obtain ⟨idx, ran, seen⟩ :=
      (Option.any_eq_true (fun idx : SymbolIndex => idx.limits.cacheFiles == 1 &&
        (idx.ensureIndexed (str "b.c") (some ⟨str "int g() { }", 1, 11⟩)).any fun outcome =>
          outcome.1.toOption.isSome && !(str "b.c" ∈ outcome.2.files)) _).mp
        (show (indexRun { cacheFiles := 1 } [parseAgain]).any _ = true by decide +kernel)
    simp only [Bool.and_eq_true, beq_iff_eq, Option.any_eq_true] at seen
    obtain ⟨cap, ⟨result, next⟩, done, success, gone⟩ := seen
    cases result with
    | error failure => simp [Except.toOption] at success
    | ok result =>
        have kept := (claim _ _ idx _ _ result next ran (by omega) done).kept
        simp [kept] at gone
  · rintro ⟨bound, claim⟩
    have room : 1 ≤ (SymbolIndex.empty {}).limits.maxSymsPerFile := by decide
    obtain ⟨idx, ran, length⟩ := run_parseAgain (bound + 1) room
    have few := claim _ idx ran
    unfold entries at few
    rw [length] at few
    omega

end Opencodepp.Graph
