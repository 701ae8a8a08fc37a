import Opencodepp.Library.Rows
import Opencodepp.Store.MemStore

/-!
# What a store is for

An abstract store, whose ids are those of its callers: an id is one that a caller made up, or the
n-th one that the store gave.  `Request` and `Reply` are the operations and their results in these
ids, and `write` renders them for a store that gives certain ids.

`Clear` is what a store needs that compares the rendered ids: in a comparison of an id with
those that are stored, two that are rendered alike are the same.
-/

set_option autoImplicit false

namespace Opencodepp.Store

open Opencodepp.Library
open Opencodepp.Msg

/-- An id of a caller, or the one that a store gave when it had given `n` before. -/
inductive Ident
  | named (id : Bytes)
  | made (n : Nat)
  deriving DecidableEq

namespace Ident

/-- No id. -/
def blank : Ident := .named []

/-- The id where a store gives these. -/
def write (given : Nat → Bytes) : Ident → Bytes
  | .named id => id
  | .made n => given n

theorem write_eq_nil_iff {given : Nat → Bytes} (visible : ∀ n, given n ≠ []) {id : Ident} :
    id.write given = [] ↔ id = blank := by
  cases id with
  | named id => exact (Ident.named.injEq id []).symm ▸ Iff.rfl
  | made n => exact ⟨fun same => absurd same (visible n), fun impossible => by cases impossible⟩

end Ident

/-- A message or a file; the ids that its body has do not count. -/
structure Item (α : Type) where
  id : Ident
  sessionId : Ident
  body : α
  deriving DecidableEq

section Write

variable (given : Nat → Bytes)

def writeSession (row : Ident × Session) : Session := { row.2 with id := row.1.write given }

def Item.message (m : Item Message) : Message :=
  { m.body with id := m.id.write given, sessionId := m.sessionId.write given }

def Item.file (f : Item File) : File :=
  { f.body with id := f.id.write given, sessionId := f.sessionId.write given }

end Write

inductive Request
  | sessionGet (id : Ident)
  | sessionSave (row : Ident × Session)
  | messagesBySession (sessionId : Ident)
  | messageSave (m : Item Message)
  | messageDelete (id : Ident)
  | fileSaveVersion (f : Item File)
  | filesBySession (sessionId : Ident)

inductive Reply
  | session (row : Ident × Session)
  | messages (list : List (Item Message))
  | message (m : Item Message)
  | deleted (told : Bool)
  | file (f : Item File)
  | files (list : List (Item File))

/-- The operation a store is asked for. -/
def Request.write (given : Nat → Bytes) : Request → Op
  | .sessionGet id => .sessionGet (id.write given)
  | .sessionSave row => .sessionSave (writeSession given row)
  | .messagesBySession sessionId => .messagesBySession (sessionId.write given)
  | .messageSave m => .messageSave (m.message given)
  | .messageDelete id => .messageDelete (id.write given)
  | .fileSaveVersion f => .fileSaveVersion (f.file given)
  | .filesBySession sessionId => .filesBySession (sessionId.write given)

/-- What a store returns. -/
def Reply.write (given : Nat → Bytes) : Reply → Response
  | .session row => .session (writeSession given row)
  | .messages list => .messages (list.map (Item.message given))
  | .message m => .message (m.message given)
  | .deleted told => .deleted told
  | .file f => .file (f.file given)
  | .files list => .files (list.map (Item.file given))

/-! ## The abstract store -/

/-- Sessions, the last one that was saved first; messages and files in the order of their first
save; and the number of ids that were given. -/
structure Ideal where
  sessions : List (Ident × Session)
  messages : List (Item Message)
  files : List (Item File)
  count : Nat

namespace Ideal

def empty : Ideal := ⟨[], [], [], 0⟩

/-- The id an object is saved under. -/
def idFor (s : Ideal) (id : Ident) : Ident := if id = .blank then .made s.count else id

/-- The number of given ids after that. -/
def countFor (s : Ideal) (id : Ident) : Nat := if id = .blank then s.count + 1 else s.count

def sessionGet (s : Ideal) (id : Ident) : Ident × Session :=
  (s.sessions.find? (·.1 = id)).getD (.blank, {})

def sessionSave (s : Ideal) (row : Ident × Session) : (Ident × Session) × Ideal :=
  let stored := (s.idFor row.1, row.2)
  (stored, { s with sessions := stored :: s.sessions, count := s.countFor row.1 })

def messagesBySession (s : Ideal) (sessionId : Ident) : List (Item Message) :=
  s.messages.filter (·.sessionId = sessionId)

def messageSave (s : Ideal) (m : Item Message) : Item Message × Ideal :=
  let stored := { m with id := s.idFor m.id }
  (stored, { s with messages := s.messages ++ [stored], count := s.countFor m.id })

def messageDelete (s : Ideal) (id : Ident) : Bool × Ideal :=
  (s.messages.any (·.id = id), { s with messages := s.messages.filter (·.id ≠ id) })

/-- A file with a new content. -/
def newContent (content : Bytes) (old : Item File) : Item File :=
  { old with body := { old.body with content, version := old.body.version + 1 } }

/-- A file that is there gets the new content, any other one goes to the end. -/
def fileSaveVersion (s : Ideal) (f : Item File) : Item File × Ideal :=
  let id := s.idFor f.id
  match s.files.find? (·.id = id) with
  | some old =>
      (newContent f.body.content old,
        { s with
          files := Rows.updateRow Item.id id (newContent f.body.content) s.files
          count := s.countFor f.id })
  | none =>
      let version := if f.body.version = 0 then 1 else f.body.version
      let stored := { f with id, body := { f.body with version } }
      (stored, { s with files := s.files ++ [stored], count := s.countFor f.id })

def filesBySession (s : Ideal) (sessionId : Ident) : List (Item File) :=
  s.files.filter (·.sessionId = sessionId)

def perform (s : Ideal) : Request → Reply × Ideal
  | .sessionGet id => (.session (s.sessionGet id), s)
  | .sessionSave row => (.session (s.sessionSave row).1, (s.sessionSave row).2)
  | .messagesBySession sessionId => (.messages (s.messagesBySession sessionId), s)
  | .messageSave m => (.message (s.messageSave m).1, (s.messageSave m).2)
  | .messageDelete id => (.deleted (s.messageDelete id).1, (s.messageDelete id).2)
  | .fileSaveVersion f => (.file (s.fileSaveVersion f).1, (s.fileSaveVersion f).2)
  | .filesBySession sessionId => (.files (s.filesBySession sessionId), s)

theorem fileSaveVersion_of_some {s : Ideal} {f old : Item File}
    (there : s.files.find? (·.id = s.idFor f.id) = some old) :
    s.fileSaveVersion f =
      (newContent f.body.content old,
        { s with
          files := Rows.updateRow Item.id (s.idFor f.id) (newContent f.body.content) s.files
          count := s.countFor f.id }) := by
  unfold fileSaveVersion
  dsimp only
  rw [there]

/-- The item of a new file. -/
def newFile (s : Ideal) (f : Item File) : Item File :=
  { f with
    id := s.idFor f.id
    body := { f.body with version := if f.body.version = 0 then 1 else f.body.version } }

theorem fileSaveVersion_of_none {s : Ideal} {f : Item File}
    (absent : s.files.find? (·.id = s.idFor f.id) = none) :
    s.fileSaveVersion f =
      (s.newFile f, { s with files := s.files ++ [s.newFile f], count := s.countFor f.id }) := by
  unfold fileSaveVersion
  dsimp only
  rw [absent]
  rfl

end Ideal

/-! ## Ids that are told apart -/

/-- None of the others is rendered like the id unless it is the same. -/
def Told (given : Nat → Bytes) (id : Ident) (others : List Ident) : Prop :=
  ∀ other ∈ others, other.write given = id.write given → other = id

/-- None of the others is rendered like the id. -/
def Fresh (given : Nat → Bytes) (id : Ident) (others : List Ident) : Prop :=
  ∀ other ∈ others, other.write given ≠ id.write given

instance (given : Nat → Bytes) (id : Ident) (others : List Ident) :
    Decidable (Told given id others) :=
  inferInstanceAs (Decidable (∀ other ∈ others, _ → _))

instance (given : Nat → Bytes) (id : Ident) (others : List Ident) :
    Decidable (Fresh given id others) :=
  inferInstanceAs (Decidable (∀ other ∈ others, _))

/-- The ids of a request are told apart from those that are stored; a message is saved under a
new id, and so is a file without one. -/
def Clear (given : Nat → Bytes) (s : Ideal) : Request → Prop
  | .sessionGet id => Told given id (s.sessions.map (·.1))
  | .sessionSave _ => True
  | .messagesBySession id => Told given id (s.messages.map (·.sessionId))
  | .messageSave m => Fresh given (s.idFor m.id) (s.messages.map (·.id))
  | .messageDelete id => Told given id (s.messages.map (·.id))
  | .fileSaveVersion f =>
      if f.id = .blank then Fresh given (s.idFor f.id) (s.files.map (·.id))
      else Told given f.id (s.files.map (·.id))
  | .filesBySession id => Told given id (s.files.map (·.sessionId))

instance (given : Nat → Bytes) (s : Ideal) : ∀ request : Request, Decidable (Clear given s request)
  | .sessionGet _ => inferInstanceAs (Decidable (Told ..))
  | .sessionSave _ => inferInstanceAs (Decidable True)
  | .messagesBySession _ => inferInstanceAs (Decidable (Told ..))
  | .messageSave _ => inferInstanceAs (Decidable (Fresh ..))
  | .messageDelete _ => inferInstanceAs (Decidable (Told ..))
  | .fileSaveVersion f => inferInstanceAs (Decidable
      (if f.id = .blank then Fresh given (s.idFor f.id) (s.files.map (·.id))
      else Told given f.id (s.files.map (·.id))))
  | .filesBySession _ => inferInstanceAs (Decidable (Told ..))

/-! ### Comparisons of rendered ids -/

section Comparisons

variable {α : Type} {given : Nat → Bytes} {key : α → Ident} {id : Ident} {items : List α}

theorem write_eq_iff (told : Told given id (items.map key)) {item : α} (member : item ∈ items) :
    (key item).write given = id.write given ↔ key item = id :=
  ⟨told _ (List.mem_map_of_mem member), fun same => same ▸ rfl⟩

theorem filter_write (told : Told given id (items.map key)) :
    items.filter (fun item => (key item).write given = id.write given) =
      items.filter fun item => key item = id :=
  List.filter_congr fun _ member => decide_eq_decide.mpr (write_eq_iff told member)

theorem find?_write (told : Told given id (items.map key)) :
    items.find? (fun item => (key item).write given = id.write given) =
      items.find? fun item => key item = id := by
  rw [← List.head?_filter, ← List.head?_filter, filter_write told]

/-- An id that is told from the others and is none of them is new. -/
theorem fresh_of_find? (told : Told given id (items.map key))
    (absent : items.find? (fun item => key item = id) = none) :
    Fresh given id (items.map key) := by
  intro other member same
  obtain ⟨item, inside, rfl⟩ := List.mem_map.mp member
  have its := (write_eq_iff told inside).mp same
  exact List.find?_eq_none.mp absent item inside (decide_eq_true its)

theorem told_of_fresh (fresh : Fresh given id (items.map key)) : Told given id (items.map key) :=
  fun other member same => absurd same (fresh other member)

theorem find?_of_fresh (fresh : Fresh given id (items.map key)) :
    items.find? (fun item => (key item).write given = id.write given) = none := by
  rw [List.find?_eq_none]
  intro item member same
  exact fresh _ (List.mem_map_of_mem member) (of_decide_eq_true same)

end Comparisons

/-! ### A new content -/

section NewContent

variable (given : Nat → Bytes) (content : Bytes) (id : Ident) (files : List (Item File))

theorem find?_newContent (written : Bytes) :
    (Rows.updateRow Item.id id (Ideal.newContent content) files).find?
        (·.id.write given = written) =
      (files.find? (·.id.write given = written)).map fun old =>
        if old.id = id then Ideal.newContent content old else old :=
  Rows.find?_updateRow (by intro old; rfl) files

theorem filter_newContent (written : Bytes) :
    ((Rows.updateRow Item.id id (Ideal.newContent content) files).filter
        (·.sessionId.write given = written)).map (·.id.write given) =
      (files.filter (·.sessionId.write given = written)).map (·.id.write given) := by
  have sessions : (Rows.updateRow Item.id id (Ideal.newContent content) files).filter
      (·.sessionId.write given = written) = Rows.updateRow Item.id id (Ideal.newContent content)
        (files.filter (·.sessionId.write given = written)) :=
    Rows.filter_updateRow (by intro old; rfl) files
  rw [sessions]
  exact Rows.map_updateRow (by intro old; rfl) _

theorem map_newContent :
    (Rows.updateRow Item.id id (Ideal.newContent content) files).map (·.id.write given) =
      files.map (·.id.write given) :=
  Rows.map_updateRow (by intro old; rfl) files

end NewContent

/-- The id that a store gives in the place of a missing one. -/
theorem write_idFor {given : Nat → Bytes} (visible : ∀ n, given n ≠ []) (s : Ideal) (id : Ident) :
    (s.idFor id).write given =
      if id.write given = [] then given s.count else id.write given := by
  unfold Ideal.idFor
  by_cases absent : id = .blank
  · rw [if_pos absent, if_pos ((Ident.write_eq_nil_iff visible).mpr absent)]
    rfl
  · rw [if_neg absent, if_neg fun nil => absent ((Ident.write_eq_nil_iff visible).mp nil)]

end Opencodepp.Store
