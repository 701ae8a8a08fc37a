import Opencodepp.Graph.Index

/-!
# The representation of the index

Both arrays are owned by the indexed files, a live symbol stands at the position that its id
says, and the names lead to the live symbols and to nothing else.  Every operation keeps
that.  The five parts of an operation are taken one by one: removing a file, compacting the
dependencies, appending a file, and noting its fingerprint and its touch.
-/

set_option autoImplicit false

namespace Opencodepp.Graph

open Opencodepp.Core
open Opencodepp.Library
open Opencodepp.Library.Ranges

/-- The file of a live symbol. -/
def symOwner (s : Sym) : Option Bytes := if s.id = 0 then none else some s.file

/-- The file of a live dependency. -/
def depOwner (d : Dep) : Option Bytes := if d.fromFile = [] then none else some d.fromFile

theorem symOwner_eq_some {s : Sym} {file : Bytes} :
    symOwner s = some file ↔ s.id ≠ 0 ∧ s.file = file := by
  simp [symOwner]

theorem depOwner_eq_some {d : Dep} {file : Bytes} :
    depOwner d = some file ↔ d.fromFile ≠ [] ∧ d.fromFile = file := by
  simp [depOwner]

/-- The ids under a name. -/
def idsOf (byName : Table (List Nat)) (name : Bytes) : List Nat := (byName.lookup name).getD []

/-- The ranges of the files in one of the arrays. -/
def rangesOf (range : ParsedFile → Range) (files : Table ParsedFile) (file : Bytes) :
    Option Range :=
  (files.lookup file).map range

/-- The names lead to the live symbols, to each once. -/
structure Named (syms : List Sym) (byName : Table (List Nat)) : Prop where
  leads : ∀ name id, id ∈ idsOf byName name ↔ ∃ s ∈ syms, s.id ≠ 0 ∧ s.id = id ∧ s.name = name
  once : ∀ name, (idsOf byName name).Nodup

/-- The representation of an index is sound. -/
structure Sound (idx : SymbolIndex) : Prop where
  symsOwned : Owned symOwner idx.syms (rangesOf ParsedFile.symRange idx.files)
  depsOwned : Owned depOwner idx.deps (rangesOf ParsedFile.depRange idx.files)
  placed : ∀ (i : Nat) s, idx.syms[i]? = some s → s.id ≠ 0 → s.id = i + 1
  named : Named idx.syms idx.byName

/-! ## Names -/

theorem idsOf_forgetName (byName : Table (List Nat)) (s : Sym) (name : Bytes) :
    idsOf (forgetName byName s) name =
      if s.id ≠ 0 ∧ name = s.name then (idsOf byName name).filter (· ≠ s.id)
      else idsOf byName name := by
  unfold forgetName
  by_cases dead : s.id = 0
  · simp [dead]
  rw [if_neg dead]
  cases known : byName.lookup s.name with
  | none =>
      by_cases same : name = s.name
      · subst same
        simp [idsOf, known]
      · simp [same]
  | some ids =>
      dsimp only
      by_cases same : name = s.name
      · subst same
        by_cases nothing : ids.filter (· ≠ s.id) = []
        · rw [if_pos nothing, if_pos ⟨dead, rfl⟩]
          simp only [idsOf, known, AList.lookup_erase, Option.getD_some, Option.getD_none, nothing]
        · rw [if_neg nothing, if_pos ⟨dead, rfl⟩]
          simp only [idsOf, known, AList.lookup_insert, Option.getD_some]
      · have other : ¬(s.id ≠ 0 ∧ name = s.name) := fun both => same both.2
        rw [if_neg other]
        split
        · simp [idsOf, AList.lookup_erase_ne same]
        · simp [idsOf, AList.lookup_insert_ne same]

theorem mem_idsOf_forgetAll (name : Bytes) (id : Nat) :
    ∀ (gone : List Sym) (byName : Table (List Nat)),
      id ∈ idsOf (gone.foldl forgetName byName) name ↔
        id ∈ idsOf byName name ∧ ∀ s ∈ gone, s.id ≠ 0 → s.name = name → s.id ≠ id := by
  intro gone
  induction gone with
  | nil => simp
  | cons s rest ih =>
      intro byName
      rw [List.foldl_cons, ih, idsOf_forgetName]
      by_cases hit : s.id ≠ 0 ∧ name = s.name
      · obtain ⟨live, rfl⟩ := hit
        simp only [ne_eq, live, not_false_eq_true, and_self, if_true, List.mem_filter,
          decide_eq_true_eq, List.forall_mem_cons, forall_const, and_assoc]
        refine and_congr_right fun _ => and_congr_left fun _ => ?_
        exact ne_comm
      · rw [if_neg hit]
        have pass : s.id ≠ 0 → s.name = name → s.id ≠ id :=
          fun live same => absurd ⟨live, same.symm⟩ hit
        simp only [List.forall_mem_cons, eq_true pass, true_and]

theorem nodup_idsOf_forgetAll (name : Bytes) : ∀ (gone : List Sym) (byName : Table (List Nat)),
    (idsOf byName name).Nodup → (idsOf (gone.foldl forgetName byName) name).Nodup := by
  intro gone
  induction gone with
  | nil => exact fun _ nodup => nodup
  | cons s rest ih =>
      intro byName nodup
      refine ih _ ?_
      rw [idsOf_forgetName]
      split
      · exact nodup.filter _
      · exact nodup

theorem idsOf_recordName (byName : Table (List Nat)) (s : Sym) (name : Bytes) :
    idsOf (recordName byName s) name =
      idsOf byName name ++ if s.name = name then [s.id] else [] := by
  by_cases same : s.name = name
  · subst same
    simp [recordName, idsOf]
  · simp [recordName, idsOf, same, AList.lookup_insert_ne (Ne.symm same)]

theorem idsOf_recordAll (name : Bytes) : ∀ (more : List Sym) (byName : Table (List Nat)),
    idsOf (more.foldl recordName byName) name =
      idsOf byName name ++ (more.filter (·.name = name)).map (·.id) := by
  intro more
  induction more with
  | nil => simp
  | cons s rest ih =>
      intro byName
      rw [List.foldl_cons, ih, idsOf_recordName, List.append_assoc]
      by_cases same : s.name = name <;> simp [same]

/-! ## Ranges of the files -/

theorem rangesOf_erase (range : ParsedFile → Range) (files : Table ParsedFile) (file : Bytes) :
    rangesOf range (files.erase file) = Function.update (rangesOf range files) file none := by
  funext other
  by_cases same : other = file
  · subst same
    simp [rangesOf]
  · simp [rangesOf, AList.lookup_erase_ne same, Function.update_of_ne same]

theorem rangesOf_insert (range : ParsedFile → Range) (files : Table ParsedFile) (file : Bytes)
    (pf : ParsedFile) :
    rangesOf range (files.insert file pf) =
      Function.update (rangesOf range files) file (some (range pf)) := by
  funext other
  by_cases same : other = file
  · subst same
    simp [rangesOf]
  · simp [rangesOf, AList.lookup_insert_ne same, Function.update_of_ne same]

/-- New values with the old ranges change nothing. -/
theorem rangesOf_insert_same {range : ParsedFile → Range} {files : Table ParsedFile} {file : Bytes}
    {pf : ParsedFile} (known : files.lookup file = some pf) (pf' : ParsedFile)
    (same : range pf' = range pf) :
    rangesOf range (files.insert file pf') = rangesOf range files := by
  rw [rangesOf_insert]
  funext other
  by_cases this : other = file
  · subst this
    simp [rangesOf, known, same]
  · rw [Function.update_of_ne this]

/-! ## Removing a file -/

variable {idx : SymbolIndex}

theorem mem_range_iff {α : Type} {entries : List α} {r : Range} {x : α} :
    x ∈ (entries.drop r.first).take r.count ↔ ∃ i, r.Has i ∧ entries[i]? = some x := by
  rw [List.mem_iff_getElem?]
  constructor
  · rintro ⟨n, found⟩
    rw [List.getElem?_take] at found
    split at found
    · rename_i short
      rw [List.getElem?_drop] at found
      exact ⟨r.first + n, ⟨by omega, by omega⟩, found⟩
    · cases found
  · rintro ⟨i, inside, found⟩
    unfold Range.Has at inside
    refine ⟨i - r.first, ?_⟩
    rw [List.getElem?_take, if_pos (by omega), List.getElem?_drop,
      Nat.add_sub_cancel' inside.1, found]

/-- What is live after a burial was live before, outside of the range. -/
theorem live_bury_iff {syms : List Sym} {r : Range} {i : Nat} {s : Sym} (live : s.id ≠ 0) :
    (bury {} r syms)[i]? = some s ↔ syms[i]? = some s ∧ ¬r.Has i := by
  rw [getElem?_bury]
  by_cases inside : r.Has i
  · simp only [inside, if_true, not_true_eq_false, and_false, iff_false]
    intro found
    obtain ⟨_, _, same⟩ := Option.map_eq_some_iff.mp found
    exact live (same ▸ rfl)
  · simp [inside]

theorem named_dropFile (sound : Sound idx) (r : Range) :
    Named (bury {} r idx.syms)
      (((idx.syms.drop r.first).take r.count).foldl forgetName idx.byName) where
  once name := nodup_idsOf_forgetAll name _ _ (sound.named.once name)
  leads name id := by
    rw [mem_idsOf_forgetAll, sound.named.leads]
    constructor
    · rintro ⟨⟨s, member, live, rfl, rfl⟩, kept⟩
      obtain ⟨i, found⟩ := List.mem_iff_getElem?.mp member
      have outside : ¬r.Has i := fun inside =>
        kept s (mem_range_iff.mpr ⟨i, inside, found⟩) live rfl rfl
      exact ⟨s, List.mem_of_getElem? ((live_bury_iff live).mpr ⟨found, outside⟩), live, rfl, rfl⟩
    · rintro ⟨s, member, live, rfl, rfl⟩
      obtain ⟨i, found⟩ := List.mem_iff_getElem?.mp member
      obtain ⟨found, outside⟩ := (live_bury_iff live).mp found
      refine ⟨⟨s, List.mem_of_getElem? found, live, rfl, rfl⟩, ?_⟩
      intro other inRange otherLive _ same
      obtain ⟨j, inside, there⟩ := mem_range_iff.mp inRange
      -- ids are positions, so the same id is the same place
      have here := sound.placed i s found live
      have place := sound.placed j other there otherLive
      obtain rfl : i = j := by omega
      exact outside inside

theorem Sound.dropFile (sound : Sound idx) {file : Bytes} {pf : ParsedFile}
    (known : idx.files.lookup file = some pf) : Sound (idx.dropFile file pf) where
  symsOwned := by
    have range : rangesOf ParsedFile.symRange idx.files file = some pf.symRange := by
      simp [rangesOf, known]
    simpa only [SymbolIndex.dropFile, rangesOf_erase] using sound.symsOwned.bury range rfl
  depsOwned := by
    have range : rangesOf ParsedFile.depRange idx.files file = some pf.depRange := by
      simp [rangesOf, known]
    simpa only [SymbolIndex.dropFile, rangesOf_erase] using sound.depsOwned.bury range rfl
  placed i s found live := sound.placed i s ((live_bury_iff live).mp found).1 live
  named := named_dropFile sound pf.symRange

/-! ## Compaction -/

/-- A file with a new range of dependencies. -/
def ParsedFile.movedTo (pf : ParsedFile) (r : Range) : ParsedFile :=
  { pf with depFirst := r.first, depCount := r.count }

theorem lookup_closeRun (cur : Bytes) (runStart fin : Nat) (files : Table ParsedFile)
    (file : Bytes) :
    (closeRun cur runStart fin files).lookup file =
      (files.lookup file).map fun pf =>
        if file = cur ∧ cur ≠ [] then pf.movedTo ⟨runStart, fin - runStart⟩ else pf := by
  unfold closeRun
  by_cases nothing : cur = []
  · simp [nothing]
  rw [if_neg nothing]
  by_cases same : file = cur
  · subst same
    cases known : files.lookup file with
    | none => simp [known]
    | some pf => simp [nothing, ParsedFile.movedTo]
  · cases known : files.lookup cur with
    | none => simp [same]
    | some pf => simp [AList.lookup_insert_ne same, same]

/-- Where the runs end up: the current one keeps its start, and every later one lies where its
file stands in the rest. -/
theorem lookup_recordRuns (file : Bytes) : ∀ (rest : List Dep) (cur : Bytes) (runStart i : Nat)
    (files : Table ParsedFile), runStart ≤ i → (∀ d ∈ rest, d.fromFile ≠ []) →
    Grouped (cur :: rest.map (·.fromFile)) →
    (recordRuns cur runStart i rest files).lookup file =
      (files.lookup file).map fun pf =>
        if file = cur ∧ cur ≠ [] then
          pf.movedTo ⟨runStart, i + (rangeOf cur (rest.map (·.fromFile))).count - runStart⟩
        else if file ∈ rest.map (·.fromFile) then
          pf.movedTo ⟨i + (rangeOf file (rest.map (·.fromFile))).first,
            (rangeOf file (rest.map (·.fromFile))).count⟩
        else pf := by
  intro rest
  induction rest with
  | nil =>
      intro cur runStart i files _ _ _
      simp [recordRuns, lookup_closeRun, rangeOf]
  | cons d rest ih =>
      intro cur runStart i files ordered live grouped
      have tailLive : ∀ d ∈ rest, d.fromFile ≠ [] := fun d member =>
        live d (List.mem_cons_of_mem _ member)
      rw [List.map_cons] at grouped
      by_cases goesOn : d.fromFile = cur
      · subst goesOn
        have here : d.fromFile ≠ [] := live d (List.mem_cons_self ..)
        rw [recordRuns, if_neg (by simp), ih _ _ _ _ (by omega) tailLive grouped.2]
        refine congrArg (Option.map · _) (funext fun pf => ?_)
        by_cases same : file = d.fromFile
        · subst same
          simp only [here, ne_eq, not_false_eq_true, and_self, if_true, List.map_cons,
            rangeOf_cons_self]
          congr 2
          omega
        · simp only [same, false_and, if_false, List.map_cons, List.mem_cons, false_or,
            rangeOf_cons_of_ne (Ne.symm same)]
          simp only [Nat.add_assoc, Nat.add_comm 1]
      · rw [recordRuns, if_pos goesOn, ih _ _ _ _ (by omega) tailLive grouped.2, lookup_closeRun]
        have left : cur ∉ rest.map (·.fromFile) := by
          intro again
          have := grouped.1 (List.mem_cons_of_mem _ again)
          simp only [List.head?_cons, Option.some.injEq] at this
          exact goesOn this
        have here : d.fromFile ≠ [] := live d (List.mem_cons_self ..)
        rw [Option.map_map]
        refine congrArg (Option.map · _) (funext fun pf => ?_)
        rw [Function.comp_apply]
        by_cases same : file = d.fromFile
        · subst same
          simp only [here, goesOn, ne_eq, not_false_eq_true, and_self, false_and, if_true, if_false,
            List.map_cons, List.mem_cons_self, rangeOf_cons_self]
          congr 2
          omega
        · simp only [same, false_and, if_false, List.map_cons, List.mem_cons, false_or,
            rangeOf_cons_of_ne (Ne.symm same)]
          by_cases old : file = cur
          · subst old
            simp only [left, if_false, true_and, rangeOf_cons_of_ne goesOn,
              count_rangeOf_of_notMem left, Nat.add_zero]
          · simp only [old, false_and, if_false, Nat.add_assoc, Nat.add_comm 1]

theorem filterMap_depOwner (deps : List Dep) :
    deps.filterMap depOwner = (deps.filter fun d => d.fromFile ≠ []).map (·.fromFile) := by
  induction deps with
  | nil => rfl
  | cons d rest ih => by_cases dead : d.fromFile = [] <;> simp [depOwner, dead, ih]

/-- The table after the runs of the live dependencies were recorded. -/
theorem lookup_compacted (sound : Sound idx) (file : Bytes) :
    (recordRuns [] 0 0 (idx.deps.filter fun d => d.fromFile ≠ []) idx.files).lookup file =
      (idx.files.lookup file).map fun pf =>
        if file ∈ idx.deps.filterMap depOwner then
          pf.movedTo (rangeOf file (idx.deps.filterMap depOwner))
        else pf := by
  have live : ∀ d ∈ idx.deps.filter fun d => d.fromFile ≠ [], d.fromFile ≠ [] :=
    fun d member => by simpa using (List.mem_filter.mp member).2
  have grouped := sound.depsOwned.grouped
  rw [filterMap_depOwner] at grouped ⊢
  have start : Grouped ([] :: (idx.deps.filter fun d => d.fromFile ≠ []).map (·.fromFile)) := by
    refine ⟨fun member => ?_, grouped⟩
    obtain ⟨d, kept, none⟩ := List.mem_map.mp member
    exact absurd none (live d kept)
  rw [lookup_recordRuns file _ _ _ _ _ (Nat.le_refl 0) live start]
  simp only [ne_eq, not_true_eq_false, and_false, if_false, Nat.zero_add]

/-- A live dependency is one of those that are kept, at the place of its file. -/
theorem getElem?_live (deps : List Dep) (i : Nat) (file : Bytes) :
    (deps.filter fun d => d.fromFile ≠ [])[i]?.bind depOwner = some file ↔
      (deps.filterMap depOwner)[i]? = some file := by
  rw [filterMap_depOwner, List.getElem?_map]
  cases found : (deps.filter fun d => d.fromFile ≠ [])[i]? with
  | none => simp
  | some d =>
      have live : d.fromFile ≠ [] := by
        simpa using (List.mem_filter.mp (List.mem_of_getElem? found)).2
      simp [depOwner, live]

/-- The files with live dependencies are the ones with a position in their range. -/
theorem mem_filterMap_depOwner_iff (sound : Sound idx) (file : Bytes) :
    file ∈ idx.deps.filterMap depOwner ↔
      ∃ pf ∈ idx.files.lookup file, ∃ i, pf.depRange.Has i := by
  rw [List.mem_filterMap]
  constructor
  · rintro ⟨d, member, owns⟩
    obtain ⟨i, found⟩ := List.mem_iff_getElem?.mp member
    obtain ⟨r, range, inside⟩ := (sound.depsOwned i file).mp (by simp [found, owns])
    obtain ⟨pf, known, rfl⟩ := Option.map_eq_some_iff.mp range
    exact ⟨pf, known, i, inside⟩
  · rintro ⟨pf, known, i, inside⟩
    have here := (sound.depsOwned i file).mpr
      ⟨pf.depRange, Option.map_eq_some_iff.mpr ⟨pf, known, rfl⟩, inside⟩
    obtain ⟨d, found, owns⟩ := Option.bind_eq_some_iff.mp here
    exact ⟨d, List.mem_of_getElem? found, owns⟩

/-- Compaction leaves the ranges of the symbols alone. -/
theorem symRanges_maybeCompactDeps (sound : Sound idx) :
    rangesOf ParsedFile.symRange idx.maybeCompactDeps.files =
      rangesOf ParsedFile.symRange idx.files := by
  unfold SymbolIndex.maybeCompactDeps
  dsimp only
  split
  · rfl
  · funext file
    rw [rangesOf, lookup_compacted sound, Option.map_map]
    refine congrArg (Option.map · _) (funext fun pf => ?_)
    rw [Function.comp_apply]
    split <;> rfl

theorem Sound.maybeCompactDeps (sound : Sound idx) : Sound idx.maybeCompactDeps := by
  have symRanges := symRanges_maybeCompactDeps sound
  have moved := lookup_compacted sound
  unfold SymbolIndex.maybeCompactDeps at symRanges ⊢
  dsimp only at symRanges ⊢
  split
  · exact sound
  rename_i dominated
  rw [if_neg dominated] at symRanges
  refine ⟨?_, ?_, sound.placed, sound.named⟩
  · dsimp only at symRanges ⊢
    rw [symRanges]
    exact sound.symsOwned
  · intro i file
    rw [getElem?_live, sound.depsOwned.grouped.getElem?_eq_some_iff, rangesOf, moved]
    by_cases kept : file ∈ idx.deps.filterMap depOwner
    · obtain ⟨pf, known, _⟩ := (mem_filterMap_depOwner_iff sound file).mp kept
      rw [Option.mem_def.mp known]
      simp only [kept, true_and, if_true, Option.map_some, Option.mem_def, Option.some.injEq,
        exists_eq_left']
      rfl
    · simp only [kept, false_and, if_false, false_iff, Option.map_id']
      rintro ⟨r, range, inside⟩
      obtain ⟨pf, known, rfl⟩ := Option.map_eq_some_iff.mp range
      exact kept ((mem_filterMap_depOwner_iff sound file).mpr ⟨pf, known, i, inside⟩)

theorem Sound.removeFile (sound : Sound idx) (file : Bytes) : Sound (idx.removeFile file) := by
  unfold SymbolIndex.removeFile
  cases known : idx.files.lookup file with
  | none => exact sound
  | some pf => exact (sound.dropFile known).maybeCompactDeps

/-! ## Appending a file -/

theorem getElem?_numbered (file : Bytes) (lang : Lang) (base : Nat) (syms : List Sym) (i : Nat) :
    (numbered file lang base syms)[i]? =
      syms[i]?.map fun s => { s with id := base + i + 1, file, lang } := by
  simp [numbered]

theorem id_numbered {file : Bytes} {lang : Lang} {base : Nat} {syms : List Sym} {i : Nat} {s : Sym}
    (found : (numbered file lang base syms)[i]? = some s) : s.id = base + i + 1 ∧ s.file = file := by
  rw [getElem?_numbered] at found
  obtain ⟨_, _, rfl⟩ := Option.map_eq_some_iff.mp found
  exact ⟨rfl, rfl⟩

theorem symOwner_numbered {file : Bytes} {lang : Lang} {base : Nat} {syms : List Sym} :
    ∀ s ∈ numbered file lang base syms, symOwner s = some file := by
  intro s member
  obtain ⟨i, found⟩ := List.mem_iff_getElem?.mp member
  obtain ⟨id, here⟩ := id_numbered found
  exact symOwner_eq_some.mpr ⟨by omega, here⟩

theorem nodup_ids_numbered (file : Bytes) (lang : Lang) (base : Nat) (syms : List Sym) :
    ((numbered file lang base syms).map (·.id)).Nodup := by
  rw [List.nodup_iff_getElem?_ne_getElem?]
  intro i j before short same
  rw [List.getElem?_map, List.getElem?_map] at same
  rw [List.length_map] at short
  have shorter := Nat.lt_trans before short
  rw [List.getElem?_eq_getElem shorter, List.getElem?_eq_getElem short] at same
  have first := (id_numbered (List.getElem?_eq_getElem shorter)).1
  have second := (id_numbered (List.getElem?_eq_getElem short)).1
  simp only [Option.map_some, Option.some.injEq] at same
  omega

theorem Sound.id_le (sound : Sound idx) {name : Bytes} {id : Nat}
    (member : id ∈ idsOf idx.byName name) : id ≤ idx.syms.length := by
  obtain ⟨s, there, live, rfl, _⟩ := (sound.named.leads name id).mp member
  obtain ⟨i, found⟩ := List.mem_iff_getElem?.mp there
  have place := sound.placed i s found live
  have short := (List.getElem?_eq_some_iff.mp found).1
  omega

theorem named_append (sound : Sound idx) (file : Bytes) (lang : Lang) (syms : List Sym) :
    Named (idx.syms ++ numbered file lang idx.syms.length syms)
      ((numbered file lang idx.syms.length syms).foldl recordName idx.byName) where
  leads name id := by
    rw [idsOf_recordAll, List.mem_append, sound.named.leads]
    simp only [List.mem_append, List.mem_map, List.mem_filter, decide_eq_true_eq, or_and_right,
      exists_or]
    refine or_congr_right ⟨?_, ?_⟩
    · rintro ⟨s, ⟨member, rfl⟩, rfl⟩
      exact ⟨s, member, (symOwner_eq_some.mp (symOwner_numbered s member)).1, rfl, rfl⟩
    · rintro ⟨s, member, _, rfl, rfl⟩
      exact ⟨s, ⟨member, rfl⟩, rfl⟩
  once name := by
    rw [idsOf_recordAll]
    refine List.nodup_append'.mpr ⟨sound.named.once name, ?_, ?_⟩
    · exact (nodup_ids_numbered file lang _ syms).sublist (List.filter_sublist.map _)
    · intro id old new
      obtain ⟨s, member, rfl⟩ := List.mem_map.mp new
      obtain ⟨i, found⟩ := List.mem_iff_getElem?.mp (List.mem_filter.mp member).1
      have := (id_numbered found).1
      have := sound.id_le old
      omega

theorem depOwner_rebased {file : Bytes} (named : file ≠ []) {base : Nat} {syms : List Sym}
    {deps : List Dep} : ∀ d ∈ deps.map (rebased file base syms), depOwner d = some file := by
  intro d member
  obtain ⟨_, _, rfl⟩ := List.mem_map.mp member
  simp [depOwner, rebased, named]

theorem Sound.extractInto (sound : Sound idx) {file : Bytes} (fresh : file ∉ idx.files)
    (named : file ≠ []) (lang : Lang) (syms : List Sym) (deps : List Dep) :
    Sound (idx.extractInto file lang syms deps) where
  symsOwned := by
    have absent : rangesOf ParsedFile.symRange idx.files file = none := by
      simp [rangesOf, AList.lookup_eq_none.mpr fresh]
    simp only [SymbolIndex.extractInto, rangesOf_insert]
    exact sound.symsOwned.append absent symOwner_numbered
  depsOwned := by
    have absent : rangesOf ParsedFile.depRange idx.files file = none := by
      simp [rangesOf, AList.lookup_eq_none.mpr fresh]
    simp only [SymbolIndex.extractInto, rangesOf_insert]
    exact sound.depsOwned.append absent (depOwner_rebased named)
  placed i s found live := by
    simp only [SymbolIndex.extractInto] at found
    by_cases old : i < idx.syms.length
    · rw [List.getElem?_append_left old] at found
      exact sound.placed i s found live
    · rw [List.getElem?_append_right (by omega)] at found
      have := (id_numbered found).1
      omega
  named := named_append sound file lang _

/-! ## Runs -/

theorem Sound.touched (sound : Sound idx) (file : Bytes) : Sound (idx.touched file) :=
  ⟨sound.symsOwned, sound.depsOwned, sound.placed, sound.named⟩

theorem Sound.setCacheCap (sound : Sound idx) (n : Nat) : Sound (idx.setCacheCap n) :=
  ⟨sound.symsOwned, sound.depsOwned, sound.placed, sound.named⟩

theorem Sound.stamped (sound : Sound idx) (file : Bytes) (mtime size : Nat) :
    Sound (idx.stamped file mtime size) := by
  unfold SymbolIndex.stamped
  cases known : idx.files.lookup file with
  | none => exact sound
  | some pf =>
      refine ⟨?_, ?_, sound.placed, sound.named⟩
      · dsimp only
        rw [rangesOf_insert_same known { pf with mtime, size } rfl]
        exact sound.symsOwned
      · dsimp only
        rw [rangesOf_insert_same known { pf with mtime, size } rfl]
        exact sound.depsOwned

theorem Sound.evictLru (sound : Sound idx) : Sound idx.evictLru := by
  unfold SymbolIndex.evictLru
  split
  · exact sound
  · cases idx.victim with
    | none => exact sound
    | some file =>
        dsimp only
        split
        · exact sound
        · exact sound.removeFile file

theorem Sound.parsed (sound : Sound idx) {file : Bytes} (named : file ≠ []) (syms : List Sym)
    (deps : List Dep) : Sound (idx.parsed file syms deps) :=
  (sound.removeFile file).extractInto (idx.notMem_removeFile file) named _ syms deps

theorem Sound.empty (limits : IndexLimits) : Sound (.empty limits) where
  symsOwned := owned_nil fun _ => rfl
  depsOwned := owned_nil fun _ => rfl
  placed i s found _ := by simp [SymbolIndex.empty] at found
  named :=
    { leads := fun name id => by simp [SymbolIndex.empty, idsOf]
      once := fun name => by simp [SymbolIndex.empty, idsOf] }

theorem Sound.step (sound : Sound idx) {op : Op} {next : SymbolIndex}
    (stepped : step idx op = some next) : Sound next := by
  cases effect_of_step stepped with
  | failed _ => exact sound
  | capped => exact sound.setCacheCap _
  | unchanged _ => exact sound.touched _
  | extracted found => exact sound.parsed (ne_nil_of_found found) _ _
  | ensured found _ =>
      exact (((sound.parsed (ne_nil_of_found found) _ _).stamped _ _ _).touched _).evictLru

theorem sound_run {limits : IndexLimits} {ops : List Op} (ran : indexRun limits ops = some idx) :
    Sound idx :=
  Transition.run_always (fun sound stepped => sound.step stepped) (Sound.empty limits) ran

/-- The representation invariant of an index, entry by entry. -/
structure Represents (idx : SymbolIndex) : Prop where
  position : ∀ (i : Nat) s, idx.syms[i]? = some s → s.id ≠ 0 → s.id = i + 1
  symRange : ∀ (i : Nat) s, idx.syms[i]? = some s → s.id ≠ 0 → ∀ file,
    (∃ pf ∈ idx.files.lookup file, pf.symRange.Has i) ↔ file = s.file
  nameOnce : ∀ s ∈ idx.syms, s.id ≠ 0 → (idsOf idx.byName s.name).count s.id = 1
  namesOnly : ∀ name ids, idx.byName.lookup name = some ids → ∀ id ∈ ids,
    ∃ s ∈ idx.syms, s.id ≠ 0 ∧ s.id = id ∧ s.name = name
  depRange : ∀ (j : Nat) d, idx.deps[j]? = some d → d.fromFile ≠ [] → ∀ file,
    (∃ pf ∈ idx.files.lookup file, pf.depRange.Has j) ↔ file = d.fromFile
  disjoint : ∀ file file' pf pf', file ≠ file' → idx.files.lookup file = some pf →
    idx.files.lookup file' = some pf' →
    ∀ i, ¬(pf.symRange.Has i ∧ pf'.symRange.Has i) ∧ ¬(pf.depRange.Has i ∧ pf'.depRange.Has i)

/-- An entry lies in the range of its owner and in no other. -/
theorem owner_iff_range {α : Type} {owner : α → Option Bytes} {entries : List α}
    {range : ParsedFile → Range} {files : Table ParsedFile}
    (owned : Owned owner entries (rangesOf range files)) {i : Nat} {x : α} {home : Bytes}
    (found : entries[i]? = some x) (owns : owner x = some home) (file : Bytes) :
    (∃ pf ∈ files.lookup file, (range pf).Has i) ↔ file = home := by
  have here := owned i file
  simp only [found, Option.bind_some, owns, Option.some.injEq, rangesOf, Option.mem_def,
    Option.map_eq_some_iff] at here
  constructor
  · rintro ⟨pf, known, inside⟩
    exact (here.mpr ⟨range pf, ⟨pf, known, rfl⟩, inside⟩).symm
  · intro same
    obtain ⟨_, ⟨pf, known, rfl⟩, inside⟩ := here.mp same.symm
    exact ⟨pf, known, inside⟩

theorem disjoint_of_owned {α : Type} {owner : α → Option Bytes} {entries : List α}
    {range : ParsedFile → Range} {files : Table ParsedFile}
    (owned : Owned owner entries (rangesOf range files)) {file file' : Bytes} {pf pf' : ParsedFile}
    (differ : file ≠ file') (known : files.lookup file = some pf)
    (known' : files.lookup file' = some pf') (i : Nat) :
    ¬((range pf).Has i ∧ (range pf').Has i) := by
  rintro ⟨inside, inside'⟩
  exact differ (owned.unique (Option.map_eq_some_iff.mpr ⟨pf, known, rfl⟩) inside
    (Option.map_eq_some_iff.mpr ⟨pf', known', rfl⟩) inside')

theorem Sound.represents (sound : Sound idx) : Represents idx where
  position := sound.placed
  symRange _ _ found live := owner_iff_range sound.symsOwned found (symOwner_eq_some.mpr ⟨live, rfl⟩)
  nameOnce s member live :=
    List.count_eq_one_of_mem (sound.named.once s.name)
      ((sound.named.leads s.name s.id).mpr ⟨s, member, live, rfl, rfl⟩)
  namesOnly name ids known id member := by
    refine (sound.named.leads name id).mp ?_
    rw [idsOf, known]
    exact member
  depRange _ _ found live := owner_iff_range sound.depsOwned found (depOwner_eq_some.mpr ⟨live, rfl⟩)
  disjoint _ _ _ _ differ known known' i :=
    ⟨disjoint_of_owned sound.symsOwned differ known known' i,
      disjoint_of_owned sound.depsOwned differ known known' i⟩

/-- **The representation invariant holds along every run.**  It holds after every operation,
and whenever a file is removed from what a run has built, right after the compaction. -/
theorem indexRun_represents {limits : IndexLimits} {ops : List Op}
    (ran : indexRun limits ops = some idx) :
    Represents idx ∧ ∀ file, Represents (idx.removeFile file) :=
  ⟨(sound_run ran).represents, fun file => ((sound_run ran).removeFile file).represents⟩

/-- A file is parsed, changes, and is parsed again. -/
def editedFile : List Op :=
  [.ensureIndexed (str "a.c") (some ⟨str "int f() { g(); }", 1, 16⟩),
    .extractFile (str "b.go") (some (str "func h() { f() }")),
    .ensureIndexed (str "a.c") (some ⟨str "int g() { f(); }", 2, 16⟩)]

theorem indexRun_represents_edited : ∃ idx, indexRun {} editedFile = some idx ∧
    idx.syms.map (·.id) = [0, 2, 3] ∧ Represents idx ∧ ∀ file, Represents (idx.removeFile file) := by
  obtain ⟨idx, ran, ids⟩ :=
    (Option.any_eq_true (fun idx => idx.syms.map (·.id) == [0, 2, 3]) _).mp
      (show (indexRun {} editedFile).any _ = true by decide +kernel)
  exact ⟨idx, ran, by simpa using ids, indexRun_represents ran⟩

end Opencodepp.Graph
