import Mathlib.Data.List.AList
import Opencodepp.Msg.Message

/-!
# The store in memory

A store keeps sessions by id, the messages of each session in the order in which they were
saved, and files by id together with the ids of each session's files.  An index leads from the
id of a message to the session of the last message that was saved under it.  An object without
an id gets one from a counter.

`Saved` is what a save of a file under a name does.
-/

set_option autoImplicit false

namespace Opencodepp.Store

open Opencodepp.Library
open Opencodepp.Msg

structure Session where
  id : Bytes := []
  title : Bytes := []
  createdAt : UInt64 := 0
  updatedAt : UInt64 := 0
  deriving Repr, DecidableEq

structure File where
  id : Bytes
  sessionId : Bytes
  path : Bytes
  content : Bytes
  version : UInt32 := 1
  createdAt : UInt64 := 0
  deriving Repr, DecidableEq

/-- A saved object is also what the listener is told. -/
structure MemStore where
  sessions : AList (fun _ : Bytes => Session)
  msgs : AList (fun _ : Bytes => List Message)
  msgSession : AList (fun _ : Bytes => Bytes)
  files : AList (fun _ : Bytes => File)
  filesOrder : AList (fun _ : Bytes => List Bytes)
  seq : UInt64

namespace MemStore

def empty : MemStore := ⟨∅, ∅, ∅, ∅, ∅, 0⟩

/-- The id that the counter gives next. -/
def nextId (s : MemStore) : Bytes := str "id" ++ decimal (s.seq + 1).toNat

/-- The id an object is saved under. -/
def idFor (s : MemStore) (id : Bytes) : Bytes := if id = [] then s.nextId else id

/-- The counter after that. -/
def seqFor (s : MemStore) (id : Bytes) : UInt64 := if id = [] then s.seq + 1 else s.seq

/-! ## Sessions -/

def sessionGet (s : MemStore) (id : Bytes) : Session := (s.sessions.lookup id).getD {}

def sessionSave (s : MemStore) (row : Session) : Session × MemStore :=
  let stored := { row with id := s.idFor row.id }
  (stored, { s with sessions := s.sessions.insert stored.id stored, seq := s.seqFor row.id })

/-! ## Messages -/

def messagesBySession (s : MemStore) (sessionId : Bytes) : List Message :=
  (s.msgs.lookup sessionId).getD []

def messageSave (s : MemStore) (m : Message) : Message × MemStore :=
  let stored := { m with id := s.idFor m.id }
  (stored,
    { s with
      msgs := s.msgs.insert stored.sessionId (s.messagesBySession stored.sessionId ++ [stored])
      msgSession := s.msgSession.insert stored.id stored.sessionId
      seq := s.seqFor m.id })

/-- Delete the first message of the id in the session the index names; the flag says whether
the listener is told. -/
def messageDelete (s : MemStore) (id : Bytes) : Bool × MemStore :=
  match s.msgSession.lookup id with
  | none => (false, s)
  | some sessionId =>
      (true,
        { s with
          msgs := s.msgs.insert sessionId ((s.messagesBySession sessionId).eraseP (·.id = id))
          msgSession := s.msgSession.erase id })

/-! ## Files -/

/-- The ids of a session's files in first-save order. -/
def fileIds (s : MemStore) (sessionId : Bytes) : List Bytes :=
  (s.filesOrder.lookup sessionId).getD []

/-- Add a file that is not there. -/
def addFile (s : MemStore) (f : File) : File × MemStore :=
  let stored :=
    { f with id := s.idFor f.id, version := if f.version = 0 then 1 else f.version }
  (stored,
    { s with
      files := s.files.insert stored.id stored
      filesOrder := s.filesOrder.insert stored.sessionId (s.fileIds stored.sessionId ++ [stored.id])
      seq := s.seqFor f.id })

/-- A file that is there keeps its path and its time. -/
def fileSaveVersion (s : MemStore) (f : File) : File × MemStore :=
  match s.files.lookup f.id with
  | some old =>
      if f.id = [] then s.addFile f
      else
        let stored := { old with content := f.content, version := old.version + 1 }
        (stored, { s with files := s.files.insert f.id stored })
  | none => s.addFile f

def filesBySession (s : MemStore) (sessionId : Bytes) : List File :=
  (s.fileIds sessionId).filterMap s.files.lookup

/-! ## What the operations do -/

theorem idFor_named (s : MemStore) {id : Bytes} (named : id ≠ []) : s.idFor id = id := if_neg named

theorem addFile_named (s : MemStore) {f : File} (named : f.id ≠ []) :
    s.addFile f =
      let stored := { f with version := if f.version = 0 then 1 else f.version }
      (stored,
        { s with
          files := s.files.insert f.id stored
          filesOrder := s.filesOrder.insert f.sessionId (s.fileIds f.sessionId ++ [f.id]) }) := by
  have counter : s.seqFor f.id = s.seq := if_neg named
  unfold addFile
  rw [s.idFor_named named, counter]

/-- The rows a session's table has after an insertion. -/
theorem getD_lookup_insert {α : Type} (table : AList (fun _ : Bytes => List α))
    (sessionId session : Bytes) (rows : List α) :
    ((table.insert sessionId rows).lookup session).getD [] =
      if session = sessionId then rows else (table.lookup session).getD [] := by
  by_cases same : session = sessionId
  · rw [if_pos same, same, AList.lookup_insert]
    rfl
  · rw [if_neg same, AList.lookup_insert_ne same]

/-- A message goes to the end of its session. -/
theorem messagesBySession_messageSave (s : MemStore) (m : Message) (session : Bytes) :
    (s.messageSave m).2.messagesBySession session =
      if session = m.sessionId then s.messagesBySession session ++ [(s.messageSave m).1]
      else s.messagesBySession session := by
  refine (getD_lookup_insert s.msgs m.sessionId session _).trans ?_
  by_cases same : session = m.sessionId
  · rw [if_pos same, if_pos same, same]
    rfl
  · rw [if_neg same, if_neg same]
    rfl

/-- A file is neither a session nor a message. -/
theorem fileSaveVersion_rest (s : MemStore) (f : File) :
    (s.fileSaveVersion f).2.sessions = s.sessions ∧ (s.fileSaveVersion f).2.msgs = s.msgs := by
  unfold fileSaveVersion
  split
  · split
    · exact ⟨rfl, rfl⟩
    · exact ⟨rfl, rfl⟩
  · exact ⟨rfl, rfl⟩

/-- What a save under a name does: the file of that name has the new content, all others are as
before, and the name is in its session's order, at the end when it is new. -/
structure Saved (f : File) (s s' : MemStore) : Prop where
  file : ∃ stored, s'.files.lookup f.id = some stored ∧ stored.content = f.content
  others : ∀ id, id ≠ f.id → s'.files.lookup id = s.files.lookup id
  order : ∀ session, s'.fileIds session =
    if s.files.lookup f.id = none ∧ session = f.sessionId then s.fileIds session ++ [f.id]
    else s.fileIds session

theorem saved_fileSaveVersion (s : MemStore) {f : File} (named : f.id ≠ []) :
    Saved f s (s.fileSaveVersion f).2 := by
  unfold fileSaveVersion
  cases found : s.files.lookup f.id with
  | some old =>
      dsimp only
      rw [if_neg named]
      exact
        { file := ⟨_, AList.lookup_insert s.files, rfl⟩
          others := fun id other => AList.lookup_insert_ne other
          order := fun session => by
            rw [if_neg (by simp [found])]
            rfl }
  | none =>
      dsimp only
      rw [s.addFile_named named]
      exact
        { file := ⟨_, AList.lookup_insert s.files, rfl⟩
          others := fun id other => AList.lookup_insert_ne other
          order := fun session => by
            refine (getD_lookup_insert s.filesOrder f.sessionId session _).trans ?_
            by_cases same : session = f.sessionId
            · rw [if_pos same, if_pos ⟨found, same⟩, same]
            · rw [if_neg same, if_neg fun both => same both.2]
              rfl }

end MemStore

/-! ## The operations

The seven operations of the interface, and what each returns; a deletion returns whether the
listener is told.  `savedId` is the id an operation saves an object under, which is empty where
the store is to give one. -/

inductive Op
  | sessionGet (id : Bytes)
  | sessionSave (row : Session)
  | messagesBySession (sessionId : Bytes)
  | messageSave (m : Message)
  | messageDelete (id : Bytes)
  | fileSaveVersion (f : File)
  | filesBySession (sessionId : Bytes)
  deriving DecidableEq

inductive Response
  | session (row : Session)
  | messages (list : List Message)
  | message (m : Message)
  | deleted (told : Bool)
  | file (f : File)
  | files (list : List File)
  deriving DecidableEq

/-- The id of the object an operation saves, as the caller gives it. -/
def Op.savedId : Op → Option Bytes
  | .sessionSave row => some row.id
  | .messageSave m => some m.id
  | .fileSaveVersion f => some f.id
  | _ => none

namespace MemStore

def perform (s : MemStore) : Op → Response × MemStore
  | .sessionGet id => (.session (s.sessionGet id), s)
  | .sessionSave row => (.session (s.sessionSave row).1, (s.sessionSave row).2)
  | .messagesBySession sessionId => (.messages (s.messagesBySession sessionId), s)
  | .messageSave m => (.message (s.messageSave m).1, (s.messageSave m).2)
  | .messageDelete id => (.deleted (s.messageDelete id).1, (s.messageDelete id).2)
  | .fileSaveVersion f => (.file (s.fileSaveVersion f).1, (s.fileSaveVersion f).2)
  | .filesBySession sessionId => (.files (s.filesBySession sessionId), s)

/-- The counter moves when an object without an id is saved, and only then. -/
theorem seq_fileSaveVersion (s : MemStore) (f : File) :
    (s.fileSaveVersion f).2.seq = s.seqFor f.id := by
  unfold fileSaveVersion
  split
  · split
    · rfl
    · next named => exact (if_neg named).symm
  · rfl

/-- The messages and the index after an operation that is about neither. -/
theorem messages_perform_of_other (s : MemStore) {op : Op} (saves : ∀ m, op ≠ .messageSave m)
    (deletes : ∀ id, op ≠ .messageDelete id) :
    (s.perform op).2.msgs = s.msgs ∧ (s.perform op).2.msgSession = s.msgSession := by
  cases op with
  | messageSave m => exact absurd rfl (saves m)
  | messageDelete id => exact absurd rfl (deletes id)
  | fileSaveVersion f =>
      refine ⟨(s.fileSaveVersion_rest f).2, ?_⟩
      show (s.fileSaveVersion f).2.msgSession = _
      unfold fileSaveVersion
      split
      · split <;> rfl
      · rfl
  | sessionGet id => exact ⟨rfl, rfl⟩
  | sessionSave row => exact ⟨rfl, rfl⟩
  | messagesBySession sessionId => exact ⟨rfl, rfl⟩
  | filesBySession sessionId => exact ⟨rfl, rfl⟩

/-- The counter after an operation. -/
theorem seq_perform (s : MemStore) (op : Op) :
    (s.perform op).2.seq = (op.savedId.map s.seqFor).getD s.seq := by
  cases op with
  | fileSaveVersion f => exact s.seq_fileSaveVersion f
  | messageDelete id =>
      show (s.messageDelete id).2.seq = s.seq
      unfold messageDelete
      split <;> rfl
  | sessionGet id => rfl
  | sessionSave row => rfl
  | messagesBySession sessionId => rfl
  | messageSave m => rfl
  | filesBySession sessionId => rfl

end MemStore

end Opencodepp.Store
