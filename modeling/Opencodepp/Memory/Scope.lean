import Opencodepp.Library.Keyed
import Opencodepp.Memory.Entry
import Opencodepp.Store.MemStore

/-!
# Scopes of a store

The entries of a scope are the files of the session of that name, each under the id that scope
and key make up.  `Kept` says that a store holds nothing else.  In such a store a scope is a list
of entries with distinct keys, to save an entry is to put it into its scope, and no other scope
is affected (`entriesByScope_saveEntry`).
-/

set_option autoImplicit false

namespace Opencodepp.Memory

open Opencodepp.Core
open Opencodepp.Library
open Opencodepp.Store

/-- The row of an entry. -/
def entryFile (e : Entry) : File where
  id := entryId e.scope e.key
  sessionId := e.scope
  path := str "memory/" ++ e.key
  content := e.toJson

def saveEntry (s : MemStore) (e : Entry) : MemStore := (s.fileSaveVersion (entryFile e)).2

/-- The entry of a row; nothing when its content cannot be read. -/
def entryOfFile (f : File) : Option Entry :=
  match Entry.fromJson f.content with
  | .ok e => some e
  | .error _ => none

def entriesByScope (s : MemStore) (scope : Bytes) : List Entry :=
  (s.filesBySession scope).filterMap entryOfFile

/-! ## Stores of entries -/

/-- The entry under an id. -/
def entryAt (s : MemStore) (id : Bytes) : Option Entry := (s.files.lookup id).bind entryOfFile

theorem entriesByScope_eq (s : MemStore) (scope : Bytes) :
    entriesByScope s scope = (s.fileIds scope).filterMap (entryAt s) :=
  List.filterMap_filterMap

/-- Every file is an entry, listed once under its scope. -/
structure Kept (s : MemStore) : Prop where
  distinct : ∀ scope, (s.fileIds scope).Nodup
  held : ∀ scope, ∀ id ∈ s.fileIds scope, ∃ e, entryAt s id = some e ∧ e.scope = scope ∧
    id = entryId scope e.key ∧ PlainKey e.key
  listed : ∀ id, s.files.lookup id ≠ none → ∃ scope, id ∈ s.fileIds scope

theorem kept_empty : Kept MemStore.empty where
  distinct _ := List.nodup_nil
  held _ _ member := absurd member List.not_mem_nil
  listed _ found := absurd rfl found

/-- What has the same files is kept alike. -/
theorem Kept.congr {s s' : MemStore} (kept : Kept s) (files : s'.files = s.files)
    (order : s'.filesOrder = s.filesOrder) : Kept s' := by
  have ids : s'.fileIds = s.fileIds := by
    funext scope
    unfold MemStore.fileIds
    rw [order]
  have entries : entryAt s' = entryAt s := by
    funext id
    unfold entryAt
    rw [files]
  exact
    { distinct := by
        rw [ids]
        exact kept.distinct
      held := by
        rw [ids, entries]
        exact kept.held
      listed := by
        rw [ids, files]
        exact kept.listed }

theorem entriesByScope_congr {s s' : MemStore} (files : s'.files = s.files)
    (order : s'.filesOrder = s.filesOrder) (scope : Bytes) :
    entriesByScope s' scope = entriesByScope s scope := by
  unfold entriesByScope MemStore.filesBySession MemStore.fileIds
  rw [files, order]

namespace Kept

variable {s : MemStore} (kept : Kept s)

include kept

/-- What is listed under a scope is an entry of it. -/
theorem scope_of_mem {scope : Bytes} {e : Entry} (member : e ∈ entriesByScope s scope) :
    e.scope = scope ∧ PlainKey e.key ∧ entryId scope e.key ∈ s.fileIds scope := by
  rw [entriesByScope_eq] at member
  obtain ⟨id, listed, found⟩ := List.mem_filterMap.mp member
  obtain ⟨e', found', within, named, plain⟩ := kept.held scope id listed
  obtain rfl : e' = e := Option.some.inj (found'.symm.trans found)
  exact ⟨within, plain, named ▸ listed⟩

/-- The ids of a scope are those of its entries. -/
theorem fileIds_eq (scope : Bytes) :
    s.fileIds scope = (entriesByScope s scope).map fun e => entryId scope e.key := by
  have held := kept.held scope
  rw [entriesByScope_eq]
  generalize s.fileIds scope = ids at held
  induction ids with
  | nil => rfl
  | cons id rest inductionHypothesis =>
      obtain ⟨⟨e, found, -, named, -⟩, others⟩ := List.forall_mem_cons.mp held
      rw [List.filterMap_cons_some found, List.map_cons, ← named, ← inductionHypothesis others]

/-- **A scope has one entry of each key.** -/
theorem keys_distinct (scope : Bytes) : ((entriesByScope s scope).map Entry.key).Nodup := by
  have distinct := kept.distinct scope
  rw [kept.fileIds_eq scope] at distinct
  rw [show (fun e : Entry => entryId scope e.key) = (entryId scope ·) ∘ Entry.key from rfl,
    ← List.map_map] at distinct
  exact List.Nodup.of_map _ distinct

end Kept

/-! ## Saving -/

theorem entryFile_id_ne_nil (e : Entry) : (entryFile e).id ≠ [] := by
  show entryId e.scope e.key ≠ []
  intro nothing
  have prefix_ := (List.append_eq_nil_iff.mp (List.append_eq_nil_iff.mp nothing).1).1
  exact absurd (List.append_eq_nil_iff.mp prefix_).1 (by decide)

theorem saved_saveEntry (s : MemStore) (e : Entry) :
    MemStore.Saved (entryFile e) s (saveEntry s e) :=
  s.saved_fileSaveVersion (entryFile_id_ne_nil e)

theorem entryAt_saveEntry (s : MemStore) (e : Entry) :
    entryAt (saveEntry s e) (entryId e.scope e.key) = some e.stored := by
  obtain ⟨stored, found, content⟩ := (saved_saveEntry s e).file
  show ((saveEntry s e).files.lookup (entryFile e).id).bind entryOfFile = _
  rw [found, Option.bind_some]
  unfold entryOfFile
  rw [content]
  show (match Entry.fromJson e.toJson with | .ok e => some e | .error _ => none) = _
  rw [fromJson_toJson]

theorem entryAt_saveEntry_of_ne (s : MemStore) (e : Entry) {id : Bytes}
    (other : id ≠ entryId e.scope e.key) : entryAt (saveEntry s e) id = entryAt s id := by
  unfold entryAt
  rw [(saved_saveEntry s e).others id other]

/-- An id that is listed somewhere is listed under the scope it tells. -/
theorem Kept.listed_iff {s : MemStore} (kept : Kept s) {e : Entry} (plain : PlainKey e.key) :
    s.files.lookup (entryId e.scope e.key) ≠ none ↔
      entryId e.scope e.key ∈ s.fileIds e.scope := by
  constructor
  · intro found
    obtain ⟨scope, listed⟩ := kept.listed _ found
    obtain ⟨e', -, -, named, plain'⟩ := kept.held scope _ listed
    rwa [← ((entryId_inj plain plain').mp named).1] at listed
  · intro listed absent
    obtain ⟨e', found, -⟩ := kept.held _ _ listed
    unfold entryAt at found
    rw [absent] at found
    cases found

/-- The ids that are listed after a save. -/
theorem mem_fileIds_saveEntry {s : MemStore} {e : Entry} {scope id : Bytes}
    (member : id ∈ (saveEntry s e).fileIds scope) :
    id ∈ s.fileIds scope ∨ id = entryId e.scope e.key ∧ scope = e.scope := by
  rw [(saved_saveEntry s e).order scope] at member
  split at member
  · rename_i new
    rcases List.mem_append.mp member with old | last
    · exact .inl old
    · exact .inr ⟨List.mem_singleton.mp last, new.2⟩
  · exact .inl member

theorem fileIds_subset_saveEntry {s : MemStore} (e : Entry) {scope id : Bytes}
    (member : id ∈ s.fileIds scope) : id ∈ (saveEntry s e).fileIds scope := by
  rw [(saved_saveEntry s e).order scope]
  split
  · exact List.mem_append_left _ member
  · exact member

theorem Kept.saveEntry {s : MemStore} (kept : Kept s) {e : Entry} (plain : PlainKey e.key) :
    Kept (saveEntry s e) where
  distinct scope := by
    rw [(saved_saveEntry s e).order scope]
    split
    · rename_i new
      have absent : entryId e.scope e.key ∉ s.fileIds e.scope := fun listed =>
        (kept.listed_iff plain).mpr listed new.1
      refine List.nodup_append.mpr ⟨kept.distinct scope, List.nodup_singleton _, ?_⟩
      rintro id listed _ last rfl
      rw [List.mem_singleton.mp last, new.2] at listed
      exact absent listed
    · exact kept.distinct scope
  held scope id member := by
    by_cases this : id = entryId e.scope e.key
    · refine ⟨e.stored, this ▸ entryAt_saveEntry s e, ?_⟩
      rcases mem_fileIds_saveEntry member with old | ⟨-, same⟩
      · obtain ⟨e', -, -, named, plain'⟩ := kept.held scope id old
        have scopes := ((entryId_inj plain plain').mp (this.symm.trans named)).1
        exact ⟨scopes, this.trans (by rw [scopes]; rfl), plain⟩
      · exact ⟨same.symm, this.trans (by rw [same]; rfl), plain⟩
    · rw [entryAt_saveEntry_of_ne s e this]
      exact kept.held scope id ((mem_fileIds_saveEntry member).resolve_right fun h => this h.1)
  listed id found := by
    by_cases this : id = entryId e.scope e.key
    · refine ⟨e.scope, ?_⟩
      rw [this]
      by_cases new : s.files.lookup (entryId e.scope e.key) = none
      · rw [(saved_saveEntry s e).order e.scope, if_pos ⟨new, rfl⟩]
        exact List.mem_append_right _ List.mem_cons_self
      · exact fileIds_subset_saveEntry e ((kept.listed_iff plain).mp new)
    · rw [(saved_saveEntry s e).others id this] at found
      obtain ⟨scope, listed⟩ := kept.listed id found
      exact ⟨scope, fileIds_subset_saveEntry e listed⟩

/-- **To save an entry is to put it into its scope**, and into no other. -/
theorem entriesByScope_saveEntry {s : MemStore} (kept : Kept s) {e : Entry}
    (plain : PlainKey e.key) (scope : Bytes) :
    entriesByScope (saveEntry s e) scope =
      if scope = e.scope then Keyed.put Entry.key e.stored (entriesByScope s scope)
      else entriesByScope s scope := by
  rw [entriesByScope_eq, entriesByScope_eq]
  have unlisted : scope ≠ e.scope → entryId e.scope e.key ∉ s.fileIds scope := by
    intro other listed
    obtain ⟨e', -, -, named, plain'⟩ := kept.held scope _ listed
    exact other ((entryId_inj plain plain').mp named).1.symm
  have unchanged : ∀ ids : List Bytes, entryId e.scope e.key ∉ ids →
      ids.filterMap (entryAt (saveEntry s e)) = ids.filterMap (entryAt s) := fun ids absent =>
    List.filterMap_congr fun id member => entryAt_saveEntry_of_ne s e fun same =>
      absent (same ▸ member)
  have order := (saved_saveEntry s e).order scope
  by_cases same : scope = e.scope
  · subst same
    rw [if_pos rfl]
    by_cases new : s.files.lookup (entryId e.scope e.key) = none
    · have absent : entryId e.scope e.key ∉ s.fileIds e.scope := fun listed =>
        (kept.listed_iff plain).mpr listed new
      have fresh : ∀ old ∈ (s.fileIds e.scope).filterMap (entryAt s), old.key ≠ e.key := by
        intro old member keys
        have listed := (kept.scope_of_mem ((entriesByScope_eq s e.scope).symm ▸ member)).2.2
        rw [keys] at listed
        exact absent listed
      have appended : Keyed.put Entry.key e.stored ((s.fileIds e.scope).filterMap (entryAt s)) =
          (s.fileIds e.scope).filterMap (entryAt s) ++ [e.stored] :=
        Keyed.put_of_absent Entry.key fresh
      rw [order, if_pos ⟨new, rfl⟩, appended, List.filterMap_append, unchanged _ absent]
      refine congrArg (_ ++ ·) ?_
      show [entryId e.scope e.key].filterMap (entryAt (saveEntry s e)) = _
      rw [List.filterMap_cons_some (entryAt_saveEntry s e)]
      rfl
    · rw [order, if_neg fun h => new h.1]
      have places : ∀ id ∈ s.fileIds e.scope, ∃ e', entryAt s id = some e' ∧
          (id = entryId e.scope e.key ↔ e'.key = e.stored.key) := ?_
      · exact Keyed.filterMap_put places (entryAt_saveEntry s e)
          (fun id other => entryAt_saveEntry_of_ne s e other) (kept.distinct e.scope)
          ((kept.listed_iff plain).mp new)
      intro id listed
      obtain ⟨e', found, -, named, plain'⟩ := kept.held e.scope id listed
      refine ⟨e', found, ?_⟩
      rw [named, entryId_inj plain' plain]
      exact ⟨fun h => h.2, fun h => ⟨rfl, h⟩⟩
  · rw [if_neg same, order, if_neg fun h => same h.2, unchanged _ (unlisted same)]

end Opencodepp.Memory
