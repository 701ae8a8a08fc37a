import Opencodepp.Library.Keyed
import Opencodepp.Store.MemStore

/-!
# The versions of a file

The store in memory keeps the current row of every file under its id, and beside the rows the ids
of each session in the order in which they were first saved.  Only the first save of an id adds to
both, a later one changes the row.  Whatever operations a run has, the files of a session are then
the ids saved under it, each at the version that counts its saves (`session_lists_its_files`).
-/

set_option autoImplicit false

namespace Opencodepp.Store

open Opencodepp.Library

/-! ## Runs -/

/-- The files that operations save, one after the other. -/
def savesOf (ops : List Op) : List File :=
  ops.filterMap fun
    | .fileSaveVersion f => some f
    | _ => none

/-- The store after operations on an empty one. -/
def MemStore.after (ops : List Op) : MemStore :=
  ops.foldl (fun s op => (s.perform op).2) .empty

/-- How the callers save files: under ids of their own, an id always for one session, less than
2^32 times, and at first with the version one or none. -/
structure Versioned (saves : List File) : Prop where
  named : ∀ f ∈ saves, f.id ≠ []
  home : ∀ f ∈ saves, ∀ g ∈ saves, f.id = g.id → f.sessionId = g.sessionId
  few : ∀ f ∈ saves, saves.countP (·.id = f.id) < 2 ^ 32
  fresh : ∀ f ∈ Keyed.firsts File.id saves, f.version = 0 ∨ f.version = 1

/-- What the saves of an id make of its first one: the content is the last one, and every save
counts as a version. -/
def standing (saves : List File) (first : File) : File :=
  { first with
    content := ((Keyed.lastOf File.id saves first.id).map File.content).getD first.content
    version := UInt32.ofNat (saves.countP (·.id = first.id)) }

/-- The files of a session in the order of their first saves, as the saves leave them. -/
def sessionFiles (saves : List File) (session : Bytes) : List File :=
  ((Keyed.firsts File.id saves).filter (·.sessionId = session)).map (standing saves)

theorem Versioned.before {saves : List File} {f : File} (versioned : Versioned (saves ++ [f])) :
    Versioned saves where
  named g member := versioned.named g (List.mem_append_left _ member)
  home g member g' member' := versioned.home g (List.mem_append_left _ member) g'
    (List.mem_append_left _ member')
  few g member := by
    have few := versioned.few g (List.mem_append_left _ member)
    rw [List.countP_append] at few
    omega
  fresh g member := versioned.fresh g (Keyed.mem_firsts_concat File.id f member)

theorem standing_concat_of_ne {saves : List File} {f first : File} (other : f.id ≠ first.id) :
    standing (saves ++ [f]) first = standing saves first := by
  have count : (saves ++ [f]).countP (·.id = first.id) = saves.countP (·.id = first.id) := by
    simp [List.countP_append, other]
  unfold standing
  rw [Keyed.lastOf_concat, if_neg other, count]

/-- One more save of an id. -/
theorem standing_concat {saves : List File} {f first : File} (same : f.id = first.id) :
    standing (saves ++ [f]) first =
      { standing saves first with
        content := f.content, version := (standing saves first).version + 1 } := by
  have count : (saves ++ [f]).countP (·.id = first.id) = saves.countP (·.id = first.id) + 1 := by
    simp [List.countP_append, same]
  unfold standing
  rw [Keyed.lastOf_concat, if_pos same, count, UInt32.ofNat_add]
  rfl

/-! ## What the tables hold -/

namespace MemStore

/-- The tables of the store are those of the saves. -/
structure KeepsSaves (saves : List File) (s : MemStore) : Prop where
  file : ∀ id, s.files.lookup id =
    ((Keyed.firsts File.id saves).find? (·.id = id)).map (standing saves)
  order : ∀ session, s.fileIds session =
    ((Keyed.firsts File.id saves).filter (·.sessionId = session)).map File.id

theorem holds_empty : KeepsSaves [] .empty where
  file _ := rfl
  order _ := rfl

/-- An operation that saves no file leaves both tables alone. -/
theorem tables_perform_of_other (s : MemStore) {op : Op} (other : ∀ f, op ≠ .fileSaveVersion f) :
    (s.perform op).2.files = s.files ∧ (s.perform op).2.filesOrder = s.filesOrder := by
  cases op with
  | fileSaveVersion f => exact absurd rfl (other f)
  | messageDelete id =>
      show (s.messageDelete id).2.files = _ ∧ (s.messageDelete id).2.filesOrder = _
      unfold messageDelete
      split <;> exact ⟨rfl, rfl⟩
  | sessionGet id => exact ⟨rfl, rfl⟩
  | sessionSave row => exact ⟨rfl, rfl⟩
  | messagesBySession sessionId => exact ⟨rfl, rfl⟩
  | messageSave m => exact ⟨rfl, rfl⟩
  | filesBySession sessionId => exact ⟨rfl, rfl⟩

/-- The first save of an id adds a row and its place in the session. -/
theorem KeepsSaves.insert {saves : List File} {s : MemStore} {f : File} (holds : KeepsSaves saves s)
    (versioned : Versioned (saves ++ [f])) (new : ∀ old ∈ saves, old.id ≠ f.id) :
    KeepsSaves (saves ++ [f]) (s.fileSaveVersion f).2 := by
  have named : f.id ≠ [] := versioned.named f (by simp)
  have absent : s.files.lookup f.id = none := by
    rw [holds.file, Keyed.find?_firsts, Option.map_eq_none_iff, List.find?_eq_none]
    simpa using new
  have version : (if f.version = 0 then 1 else f.version) = 1 := by
    have first : f ∈ Keyed.firsts File.id (saves ++ [f]) := by
      rw [Keyed.firsts_concat_of_new File.id new]
      exact List.mem_append_right _ List.mem_cons_self
    rcases versioned.fresh f first with zero | one
    · rw [if_pos zero]
    · rw [one]
      rfl
  have none_ : saves.countP (·.id = f.id) = 0 := by
    rw [List.countP_eq_zero]
    simpa using new
  have own : standing (saves ++ [f]) f = { f with version := 1 } := by
    unfold standing
    rw [Keyed.lastOf_concat, if_pos rfl, List.countP_append, none_]
    simp
  unfold fileSaveVersion
  rw [absent]
  dsimp only
  rw [s.addFile_named named]
  dsimp only
  rw [version]
  constructor
  · intro id
    rw [Keyed.firsts_concat_of_new File.id new, List.find?_append]
    by_cases here : id = f.id
    · subst here
      have earlier : (Keyed.firsts File.id saves).find? (·.id = f.id) = none := by
        rw [Keyed.find?_firsts, List.find?_eq_none]
        simpa using new
      rw [AList.lookup_insert, earlier]
      simp [own]
    · rw [AList.lookup_insert_ne here, holds.file]
      have last : [f].find? (·.id = id) = none := by simp [Ne.symm here]
      rw [last, Option.or_none]
      refine Option.map_congr fun g found => ?_
      have keyed : g.id = id := by simpa using List.find?_some found
      exact (standing_concat_of_ne (fun same => here (same.trans keyed).symm)).symm
  · intro session
    rw [Keyed.firsts_concat_of_new File.id new]
    refine (getD_lookup_insert s.filesOrder f.sessionId session _).trans ?_
    by_cases same : session = f.sessionId
    · rw [if_pos same, ← same, holds.order]
      simp [same]
    · rw [if_neg same]
      refine (holds.order session).trans ?_
      simp [Ne.symm same]

/-- A further save of an id changes its row. -/
theorem KeepsSaves.replace {saves : List File} {s : MemStore} {f : File} (holds : KeepsSaves saves s)
    (named : f.id ≠ []) {old : File} (member : old ∈ saves) (same : old.id = f.id) :
    KeepsSaves (saves ++ [f]) (s.fileSaveVersion f).2 := by
  have firsts := Keyed.firsts_concat_of_known File.id member same
  have known : ((Keyed.firsts File.id saves).find? (·.id = f.id)).isSome = true := by
    rw [Keyed.find?_firsts, List.find?_isSome]
    exact ⟨old, member, by simpa using same⟩
  obtain ⟨first, found⟩ := Option.isSome_iff_exists.mp known
  have keyed : f.id = first.id := by simpa [eq_comm] using List.find?_some found
  have row : s.files.lookup f.id = some (standing saves first) := by
    rw [holds.file, found]
    rfl
  unfold fileSaveVersion
  rw [row]
  dsimp only
  rw [if_neg named]
  constructor
  · intro id
    rw [firsts]
    by_cases here : id = f.id
    · subst here
      rw [AList.lookup_insert, found, Option.map_some, standing_concat keyed]
    · rw [AList.lookup_insert_ne here, holds.file]
      refine Option.map_congr fun g there => ?_
      have other : g.id = id := by simpa using List.find?_some there
      exact (standing_concat_of_ne (fun same => here (same.trans other).symm)).symm
  · intro session
    rw [firsts]
    exact holds.order session

/-- **Every operation keeps the tables those of the saves.** -/
theorem holds_after (ops : List Op) (versioned : Versioned (savesOf ops)) :
    KeepsSaves (savesOf ops) (after ops) := by
  induction ops using List.reverseRecOn with
  | nil => exact holds_empty
  | append_singleton earlier op inductionHypothesis =>
      have last : after (earlier ++ [op]) = ((after earlier).perform op).2 := by
        unfold after
        rw [List.foldl_append]
        rfl
      have saves : savesOf (earlier ++ [op]) = savesOf earlier ++ savesOf [op] :=
        List.filterMap_append
      rw [last]
      rw [saves] at versioned ⊢
      by_cases file : ∃ f, op = .fileSaveVersion f
      · obtain ⟨f, rfl⟩ := file
        have holds := inductionHypothesis versioned.before
        show KeepsSaves (savesOf earlier ++ [f]) ((after earlier).fileSaveVersion f).2
        by_cases new : ∀ old ∈ savesOf earlier, old.id ≠ f.id
        · exact holds.insert versioned new
        · push Not at new
          obtain ⟨old, member, same⟩ := new
          exact holds.replace (versioned.named f (by simp [savesOf])) member same
      · have other : ∀ f, op ≠ .fileSaveVersion f := fun f same => file ⟨f, same⟩
        have none_ : savesOf [op] = [] := by
          cases op with
          | fileSaveVersion f => exact absurd rfl (other f)
          | sessionGet | sessionSave | messagesBySession | messageSave | messageDelete
            | filesBySession => rfl
        rw [none_, List.append_nil] at versioned ⊢
        have holds := inductionHypothesis versioned
        obtain ⟨files, order⟩ := (after earlier).tables_perform_of_other other
        refine ⟨fun id => ?_, fun session => ?_⟩
        · rw [files]
          exact holds.file id
        · refine Eq.trans ?_ (holds.order session)
          unfold fileIds
          rw [order]

/-- The files of a session are the rows its saves have left. -/
theorem filesBySession_eq {saves : List File} {s : MemStore} (holds : KeepsSaves saves s)
    (session : Bytes) : s.filesBySession session = sessionFiles saves session := by
  unfold filesBySession sessionFiles
  rw [holds.order, List.filterMap_map, ← List.filterMap_eq_map]
  refine List.filterMap_congr fun first member => ?_
  have listed := (List.mem_filter.mp member).1
  show s.files.lookup first.id = some (standing saves first)
  rw [holds.file, (Keyed.find?_eq_some_of_mem File.id (Keyed.nodup_keys_firsts File.id saves) listed)]
  rfl

end MemStore

/-! ## What a session lists -/

/-- The saves of other sessions leave the first saves of a session as they are. -/
theorem firsts_filter_session {saves : List File} (versioned : Versioned saves) (session : Bytes) :
    (Keyed.firsts File.id saves).filter (·.sessionId = session) =
      Keyed.firsts File.id (saves.filter (·.sessionId = session)) := by
  induction saves using List.reverseRecOn with
  | nil => rfl
  | append_singleton earlier f inductionHypothesis =>
      have earlierSame := inductionHypothesis versioned.before
      rw [List.filter_append]
      by_cases new : ∀ old ∈ earlier, old.id ≠ f.id
      · rw [Keyed.firsts_concat_of_new File.id new, List.filter_append, earlierSame]
        by_cases here : f.sessionId = session
        · have filtered : ∀ old ∈ earlier.filter (·.sessionId = session), old.id ≠ f.id :=
            fun old member => new old (List.mem_filter.mp member).1
          rw [show [f].filter (·.sessionId = session) = [f] by simp [here],
            Keyed.firsts_concat_of_new File.id filtered]
        · rw [show [f].filter (·.sessionId = session) = [] by simp [here], List.append_nil,
            List.append_nil]
      · push Not at new
        obtain ⟨old, member, same⟩ := new
        rw [Keyed.firsts_concat_of_known File.id member same, earlierSame]
        by_cases here : f.sessionId = session
        · have home : old.sessionId = session :=
            (versioned.home old (by simp [member]) f (by simp) same).trans here
          have filtered : old ∈ earlier.filter (·.sessionId = session) :=
            List.mem_filter.mpr ⟨member, by simpa using home⟩
          rw [show [f].filter (·.sessionId = session) = [f] by simp [here],
            Keyed.firsts_concat_of_known File.id filtered same]
        · rw [show [f].filter (·.sessionId = session) = [] by simp [here], List.append_nil]

/-- What a session should list after saves of files. -/
structure Lists (saves : List File) (session : Bytes) (files : List File) : Prop where
  once : (files.map File.id).Nodup
  listed : ∀ id, id ∈ files.map File.id ↔ ∃ f ∈ saves, f.id = id ∧ f.sessionId = session
  order : files.map File.id =
    ((Keyed.firsts File.id saves).filter (·.sessionId = session)).map File.id
  row : ∀ file ∈ files, ∃ before first after, saves = before ++ first :: after ∧
    (∀ g ∈ before, g.id ≠ first.id) ∧
    (file.id = first.id ∧ file.sessionId = first.sessionId ∧ file.path = first.path ∧
      file.createdAt = first.createdAt) ∧
    (∃ last, Keyed.lastOf File.id saves file.id = some last ∧ file.content = last.content) ∧
    file.version.toNat = saves.countP (·.id = file.id)
  own : files = sessionFiles (saves.filter (·.sessionId = session)) session

theorem lists_sessionFiles {saves : List File} (versioned : Versioned saves) (session : Bytes) :
    Lists saves session (sessionFiles saves session) := by
  have ids : (sessionFiles saves session).map File.id =
      ((Keyed.firsts File.id saves).filter (·.sessionId = session)).map File.id := by
    unfold sessionFiles
    rw [List.map_map]
    rfl
  refine ⟨?_, fun id => ?_, ids, fun file member => ?_, ?_⟩
  · rw [ids]
    exact (Keyed.nodup_keys_firsts File.id saves).sublist (List.filter_sublist.map _)
  · rw [ids]
    constructor
    · intro member
      obtain ⟨first, listed, rfl⟩ := List.mem_map.mp member
      obtain ⟨isFirst, here⟩ := List.mem_filter.mp listed
      exact ⟨first, Keyed.mem_of_mem_firsts File.id isFirst, rfl, by simpa using here⟩
    · rintro ⟨f, member, rfl, here⟩
      have known : f.id ∈ (Keyed.firsts File.id saves).map File.id :=
        (Keyed.mem_keys_firsts File.id).mpr (List.mem_map_of_mem member)
      obtain ⟨first, isFirst, same⟩ := List.mem_map.mp known
      have home := versioned.home first (Keyed.mem_of_mem_firsts File.id isFirst) f member same
      exact List.mem_map.mpr ⟨first, List.mem_filter.mpr ⟨isFirst, by simp [home, here]⟩, same⟩
  · obtain ⟨first, listed, rfl⟩ := List.mem_map.mp member
    have isFirst := (List.mem_filter.mp listed).1
    have inside := Keyed.mem_of_mem_firsts File.id isFirst
    obtain ⟨before, after, split, new⟩ := Keyed.exists_split_of_mem_firsts File.id isFirst
    refine ⟨before, first, after, split, new, ⟨rfl, rfl, rfl, rfl⟩, ?_, ?_⟩
    · obtain ⟨last, found⟩ := Option.isSome_iff_exists.mp (Keyed.lastOf_isSome File.id inside)
      refine ⟨last, found, ?_⟩
      show ((Keyed.lastOf File.id saves first.id).map File.content).getD first.content = _
      rw [found]
      rfl
    · show (UInt32.ofNat (saves.countP (·.id = first.id))).toNat = _
      rw [UInt32.toNat_ofNat']
      exact Nat.mod_eq_of_lt (versioned.few first inside)
  · unfold sessionFiles
    rw [← firsts_filter_session versioned, List.filter_filter]
    simp only [Bool.and_self]
    refine List.map_congr_left fun first listed => ?_
    obtain ⟨isFirst, here⟩ := List.mem_filter.mp listed
    have inside := Keyed.mem_of_mem_firsts File.id isFirst
    -- all saves of the id are saves of the session
    have mine : ∀ g ∈ saves, g.id = first.id → g.sessionId = session := fun g member same =>
      (versioned.home g member first inside same).trans (by simpa using here)
    have count : (saves.filter (·.sessionId = session)).countP (·.id = first.id) =
        saves.countP (·.id = first.id) := by
      rw [List.countP_filter]
      refine List.countP_congr fun g member => ?_
      simpa using mine g member
    have last : Keyed.lastOf File.id (saves.filter (·.sessionId = session)) first.id =
        Keyed.lastOf File.id saves first.id := by
      unfold Keyed.lastOf
      rw [← List.filter_reverse, ← List.head?_filter, ← List.head?_filter, List.filter_filter]
      refine congrArg List.head? (List.filter_congr fun g member => ?_)
      simpa using mine g (List.mem_reverse.mp member)
    unfold standing
    rw [count, last]

/-- **A session lists the files saved under it**, each id once and in the order of the first
saves, with the last content, and as many versions as saves. -/
theorem session_lists_its_files {ops : List Op} (versioned : Versioned (savesOf ops))
    (session : Bytes) :
    Lists (savesOf ops) session ((MemStore.after ops).filesBySession session) := by
  rw [MemStore.filesBySession_eq (MemStore.holds_after ops versioned)]
  exact lists_sessionFiles versioned session

/-- Two files of two sessions, the first of them saved again under another path. -/
def threeSaves : List Op :=
  [.fileSaveVersion ⟨str "a", str "s", str "a.c", str "1", 0, 7⟩,
    .fileSaveVersion ⟨str "b", str "t", str "b.c", str "2", 1, 8⟩,
    .fileSaveVersion ⟨str "a", str "s", str "x.c", str "3", 9, 9⟩]

theorem session_lists_its_files_three :
    Lists (savesOf threeSaves) (str "s") ((MemStore.after threeSaves).filesBySession (str "s")) ∧
      (MemStore.after threeSaves).filesBySession (str "s") =
        [⟨str "a", str "s", str "a.c", str "3", 2, 7⟩] :=
  ⟨session_lists_its_files ⟨by decide, by decide, by decide, by decide⟩ (str "s"), by decide⟩

end Opencodepp.Store
