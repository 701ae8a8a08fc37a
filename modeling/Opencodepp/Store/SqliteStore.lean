import Opencodepp.Library.Rows
import Opencodepp.Msg.Codec
import Opencodepp.Store.MemStore

/-!
# The store in a database

The prepared statements of the store over its three tables, and the operations that bind and
step them.  A text is bound with its length as an `int` and read back as a C string, a message
is kept as its encoding, and rows that do not decode are left out.

The integers of a row are not bounded: `seq` and `version` are counted up by the statements.
-/

set_option autoImplicit false

namespace Opencodepp.Store

open Opencodepp.Library
open Opencodepp.Msg

/-- A row of `sessions`. -/
structure SessionRow where
  id : Bytes
  title : Bytes
  createdAt : Int64
  updatedAt : Int64
  deriving DecidableEq

/-- A row of `messages`. -/
structure MessageRow where
  id : Bytes
  sessionId : Bytes
  seq : Int
  blob : Bytes
  deriving DecidableEq

/-- A row of `files`. -/
structure FileRow where
  id : Bytes
  sessionId : Bytes
  path : Bytes
  content : Bytes
  version : Int
  createdAt : Int64
  deriving DecidableEq

/-- The tables, each in the order of its rows. -/
structure SqliteStore where
  sessions : List SessionRow
  messages : List MessageRow
  files : List FileRow
  seq : UInt64

/-! ## Values that are bound and read -/

/-- The size of a string as an `int`. -/
def intSize (s : Bytes) : Int := (s.length : Int).bmod (2 ^ 32)

/-- `sqlite3_bind_text`: with a negative size the text goes to its first zero byte. -/
def bindText (s : Bytes) : Bytes :=
  if intSize s < 0 then cString s else s.take (intSize s).toNat

/-- `sqlite3_bind_blob`, which is not defined for a negative size; then nothing is bound here. -/
def bindBlob (s : Bytes) : Bytes := s.take (intSize s).toNat

/-- `std::to_string` of a signed number. -/
def signed (n : Int) : Bytes := if n < 0 then ch '-' :: decimal n.natAbs else decimal n.natAbs

/-- A message before its members are set. -/
def blankMessage : Message := ⟨[], [], .user, [], [], 0⟩

/-- The message of a row, unless the row is empty or does not decode. -/
def readMessage (blob : Bytes) : Option Message :=
  if blob = [] then none
  else
    let decoded := decodeMessage blob blankMessage
    if decoded.1.ok then some decoded.2 else none

namespace SqliteStore

def empty : SqliteStore := ⟨[], [], [], 0⟩

/-- The id that is given next when the clock shows `now`. -/
def nextId (s : SqliteStore) (now : Int) : Bytes :=
  str "id" ++ signed now ++ str "-" ++ decimal (s.seq + 1).toNat

/-- The id an object is saved under. -/
def idFor (s : SqliteStore) (now : Int) (id : Bytes) : Bytes := if id = [] then s.nextId now else id

/-- The counter after that. -/
def seqFor (s : SqliteStore) (id : Bytes) : UInt64 := if id = [] then s.seq + 1 else s.seq

/-! ## Sessions -/

def sessionGet (s : SqliteStore) (id : Bytes) : Session :=
  match s.sessions.find? (·.id = bindText id) with
  | some row => ⟨id, cString row.title, row.createdAt.toUInt64, row.updatedAt.toUInt64⟩
  | none => {}

def sessionSave (s : SqliteStore) (now : Int) (row : Session) : Session × SqliteStore :=
  let stored := { row with id := s.idFor now row.id }
  let bound : SessionRow :=
    ⟨bindText stored.id, bindText stored.title, stored.createdAt.toInt64, stored.updatedAt.toInt64⟩
  (stored,
    { s with
      sessions := Rows.replaceRow SessionRow.id bound s.sessions
      seq := s.seqFor row.id })

/-! ## Messages -/

def messagesBySession (s : SqliteStore) (sessionId : Bytes) : List Message :=
  (Rows.orderBy MessageRow.seq (s.messages.filter (·.sessionId = bindText sessionId))).filterMap
    fun row => readMessage row.blob

/-- A message whose row is rejected is returned all the same. -/
def messageSave (s : SqliteStore) (now : Int) (m : Message) : Message × SqliteStore :=
  let stored := { m with id := s.idFor now m.id }
  let session := bindText stored.sessionId
  let row : MessageRow :=
    ⟨bindText stored.id, session,
      Rows.nextValue MessageRow.seq (s.messages.filter (·.sessionId = session)),
      bindBlob (encodeMessage stored)⟩
  (stored,
    { s with messages := Rows.insertRow MessageRow.id row s.messages, seq := s.seqFor m.id })

/-- The flag says whether the listener is told, which is when a row was deleted. -/
def messageDelete (s : SqliteStore) (id : Bytes) : Bool × SqliteStore :=
  (s.messages.any (·.id = bindText id),
    { s with messages := s.messages.filter (·.id ≠ bindText id) })

/-! ## Files -/

/-- What `ON CONFLICT` does to the row that is there. -/
def newVersion (content : Bytes) (old : FileRow) : FileRow :=
  { old with content, version := old.version + 1 }

/-- Version, path and time are those of the row after the statement. -/
def fileSaveVersion (s : SqliteStore) (now : Int) (f : File) : File × SqliteStore :=
  let stored :=
    { f with id := s.idFor now f.id, version := if f.version = 0 then 1 else f.version }
  let bound : FileRow :=
    ⟨bindText stored.id, bindText stored.sessionId, bindText stored.path, bindText stored.content,
      stored.version.toInt32.toInt, stored.createdAt.toInt64⟩
  let files := Rows.upsertRow FileRow.id (newVersion bound.content) bound s.files
  let returned :=
    match files.find? (·.id = bound.id) with
    | some row =>
        { stored with
          version := UInt32.ofInt row.version
          path := cString row.path
          createdAt := row.createdAt.toUInt64 }
    | none => stored
  (returned, { s with files := files, seq := s.seqFor f.id })

def filesBySession (s : SqliteStore) (sessionId : Bytes) : List File :=
  (s.files.filter (·.sessionId = bindText sessionId)).map fun row =>
    ⟨cString row.id, sessionId, cString row.path, cString row.content, UInt32.ofInt row.version,
      row.createdAt.toUInt64⟩

/-! ## The interface -/

def perform (s : SqliteStore) (now : Int) : Op → Response × SqliteStore
  | .sessionGet id => (.session (s.sessionGet id), s)
  | .sessionSave row => (.session (s.sessionSave now row).1, (s.sessionSave now row).2)
  | .messagesBySession sessionId => (.messages (s.messagesBySession sessionId), s)
  | .messageSave m => (.message (s.messageSave now m).1, (s.messageSave now m).2)
  | .messageDelete id => (.deleted (s.messageDelete id).1, (s.messageDelete id).2)
  | .fileSaveVersion f => (.file (s.fileSaveVersion now f).1, (s.fileSaveVersion now f).2)
  | .filesBySession sessionId => (.files (s.filesBySession sessionId), s)

end SqliteStore

/-! ## What is bound whole -/

theorem bindBlob_of_small {s : Bytes} (small : s.length < 2 ^ 31) : bindBlob s = s := by
  have size : intSize s = s.length := by
    unfold intSize
    rw [Int.bmod_eq_of_le_mul_two (by omega) (by omega)]
  unfold bindBlob
  rw [size, Int.toNat_natCast, List.take_length]

/-- What the codec gives back is what is read. -/
theorem readMessage_encodeMessage {m : Message} (sized : m.Sized)
    (few : m.parts.length ≤ kCodecMaxParts) : readMessage (encodeMessage m) = some m := by
  have decoded := (decode_encode_message m blankMessage sized few).1
  have some_ : encodeMessage m ≠ [] := by
    unfold encodeMessage
    exact List.cons_ne_nil _ _
  unfold readMessage
  rw [if_neg some_, decoded]
  rfl

end Opencodepp.Store
