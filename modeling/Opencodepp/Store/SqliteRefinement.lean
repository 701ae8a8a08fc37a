import Opencodepp.Store.Ideal
import Opencodepp.Store.SqliteStore

/-!
# The store in a database refines the abstract store

`SqliteStore.Holds` is what the rows of the tables have to do with an abstract store.  Every
operation keeps it, and returns what the abstract one does, as long as ids are told apart and what
is saved comes back as it was (`SqliteStore.refines`).
-/

set_option autoImplicit false

namespace Opencodepp.Store

open Opencodepp.Library
open Opencodepp.Msg

/-- The ids of the store, where `clock` is what the clock shows when an id is given. -/
def sqliteIds (clock : Nat → Int) (n : Nat) : Bytes :=
  str "id" ++ signed (clock n) ++ str "-" ++ decimal (UInt64.ofNat (n + 1)).toNat

theorem sqliteIds_ne_nil (clock : Nat → Int) (n : Nat) : sqliteIds clock n ≠ [] :=
  List.cons_ne_nil _ _

/-! ## What comes back as it was -/

/-- A text is bound with all its bytes. -/
def Whole (s : Bytes) : Prop := bindText s = s

instance (s : Bytes) : Decidable (Whole s) := inferInstanceAs (Decidable (_ = _))

/-- A C string holds all bytes of the text. -/
def Plain (s : Bytes) : Prop := (0 : UInt8) ∉ s

instance (s : Bytes) : Decidable (Plain s) := inferInstanceAs (Decidable (¬_))

/-- A message has few enough parts for the decoder, and an encoding that can be bound. -/
structure Storable (m : Message) : Prop where
  sized : m.Sized
  few : m.parts.length ≤ kCodecMaxParts
  small : (encodeMessage m).length < 2 ^ 31

theorem Storable.readMessage {m : Message} (storable : Storable m) :
    readMessage (bindBlob (encodeMessage m)) = some m := by
  rw [bindBlob_of_small storable.small]
  exact readMessage_encodeMessage storable.sized storable.few

/-- Texts are bound whole, a text that is read has no zero byte, a message can be stored, and a
file that is there is saved for the session it is in. -/
def Kept (given : Nat → Bytes) (s : Ideal) : Request → Prop
  | .sessionGet id =>
      Whole (id.write given) ∧ ∀ row ∈ s.sessions.find? (·.1 = id), Plain row.2.title
  | .sessionSave row => Whole ((s.idFor row.1).write given) ∧ Whole row.2.title
  | .messagesBySession id => Whole (id.write given)
  | .messageSave m =>
      Whole ((s.idFor m.id).write given) ∧ Whole (m.sessionId.write given) ∧
        Storable ((s.messageSave m).1.message given)
  | .messageDelete id => Whole (id.write given)
  | .fileSaveVersion f =>
      Whole ((s.idFor f.id).write given) ∧ Whole f.body.content ∧
        match s.files.find? (·.id = s.idFor f.id) with
        | some old => f.sessionId = old.sessionId ∧ Plain old.body.path
        | none => Whole (f.sessionId.write given) ∧ Whole f.body.path ∧ Plain f.body.path
  | .filesBySession id =>
      Whole (id.write given) ∧ ∀ f ∈ s.filesBySession id,
        Plain (f.id.write given) ∧ Plain f.body.path ∧ Plain f.body.content

namespace SqliteStore

/-! ## The rows of an abstract store -/

/-- The row of a session. -/
def sessionRow (given : Nat → Bytes) (row : Ident × Session) : SessionRow :=
  ⟨row.1.write given, row.2.title, row.2.createdAt.toInt64, row.2.updatedAt.toInt64⟩

/-- What a row of a message says, apart from its place. -/
def messageView (row : MessageRow) : Bytes × Bytes × Option Message :=
  (row.id, row.sessionId, readMessage row.blob)

/-- What the row of a message says. -/
def itemView (given : Nat → Bytes) (m : Item Message) : Bytes × Bytes × Option Message :=
  (m.id.write given, m.sessionId.write given, some (m.message given))

/-- The file of a row. -/
def fileView (row : FileRow) : File :=
  ⟨row.id, row.sessionId, row.path, row.content, UInt32.ofInt row.version, row.createdAt.toUInt64⟩

/-- The tables have these rows. -/
structure Holds (clock : Nat → Int) (s : Ideal) (store : SqliteStore) : Prop where
  sessions : ∀ id, store.sessions.find? (·.id = id) =
    (s.sessions.find? (·.1.write (sqliteIds clock) = id)).map (sessionRow (sqliteIds clock))
  messages : store.messages.map messageView = s.messages.map (itemView (sqliteIds clock))
  ascending : store.messages.Pairwise fun a b => a.sessionId = b.sessionId → a.seq < b.seq
  files : store.files.map fileView = s.files.map (Item.file (sqliteIds clock))
  counter : store.seq = UInt64.ofNat s.count

namespace Holds

theorem empty (clock : Nat → Int) : Holds clock .empty .empty where
  sessions := fun _ => rfl
  messages := rfl
  ascending := List.Pairwise.nil
  files := rfl
  counter := rfl

variable {clock : Nat → Int} {s : Ideal} {store : SqliteStore}

theorem nextId (holds : Holds clock s store) :
    store.nextId (clock s.count) = sqliteIds clock s.count := by
  unfold SqliteStore.nextId sqliteIds
  rw [holds.counter, UInt64.ofNat_add]
  rfl

theorem idFor (holds : Holds clock s store) (id : Ident) :
    store.idFor (clock s.count) (id.write (sqliteIds clock)) =
      (s.idFor id).write (sqliteIds clock) := by
  rw [write_idFor (sqliteIds_ne_nil clock), ← holds.nextId]
  rfl

theorem seqFor (holds : Holds clock s store) (id : Ident) :
    store.seqFor (id.write (sqliteIds clock)) = UInt64.ofNat (s.countFor id) := by
  have blank : id.write (sqliteIds clock) = [] ↔ id = .blank :=
    Ident.write_eq_nil_iff (sqliteIds_ne_nil clock)
  unfold SqliteStore.seqFor Ideal.countFor
  rw [holds.counter]
  by_cases absent : id = .blank
  · rw [if_pos absent, if_pos (blank.mpr absent), UInt64.ofNat_add]
    rfl
  · rw [if_neg absent, if_neg fun nil => absent (blank.mp nil)]

/-! ## Sessions -/

theorem sessionGet (holds : Holds clock s store) {id : Ident}
    (told : Told (sqliteIds clock) id (s.sessions.map (·.1)))
    (kept : Kept (sqliteIds clock) s (.sessionGet id)) :
    store.sessionGet (id.write (sqliteIds clock)) =
      writeSession (sqliteIds clock) (s.sessionGet id) := by
  obtain ⟨whole, plain⟩ := kept
  unfold SqliteStore.sessionGet Ideal.sessionGet
  rw [whole, holds.sessions, find?_write told]
  cases found : s.sessions.find? (·.1 = id) with
  | none => rfl
  | some row =>
      have its : row.1 = id := by simpa using List.find?_some found
      show (⟨_, cString row.2.title, _, _⟩ : Session) = writeSession _ row
      rw [cString_of_notMem (plain row found), ← its]
      rfl

theorem sessionSave (holds : Holds clock s store) {row : Ident × Session}
    (kept : Kept (sqliteIds clock) s (.sessionSave row)) :
    (store.sessionSave (clock s.count) (writeSession (sqliteIds clock) row)).1 =
        writeSession (sqliteIds clock) (s.sessionSave row).1 ∧
      Holds clock (s.sessionSave row).2
        (store.sessionSave (clock s.count) (writeSession (sqliteIds clock) row)).2 := by
  obtain ⟨wholeId, wholeTitle⟩ := kept
  have id_ := holds.idFor row.1
  have stored : (store.sessionSave (clock s.count) (writeSession (sqliteIds clock) row)).1 =
      writeSession (sqliteIds clock) (s.sessionSave row).1 := by
    show ({ row.2 with
      id := store.idFor (clock s.count) (row.1.write (sqliteIds clock)) } : Session) = _
    rw [id_]
    rfl
  have table : (store.sessionSave (clock s.count) (writeSession (sqliteIds clock) row)).2.sessions =
      Rows.replaceRow SessionRow.id (sessionRow (sqliteIds clock) (s.sessionSave row).1)
        store.sessions := by
    show Rows.replaceRow SessionRow.id
      ⟨bindText (store.idFor (clock s.count) (row.1.write (sqliteIds clock))),
        bindText row.2.title, row.2.createdAt.toInt64, row.2.updatedAt.toInt64⟩ store.sessions = _
    rw [id_, wholeId, wholeTitle]
    rfl
  refine ⟨stored, ?_⟩
  exact
    { holds with
      sessions := fun id => by
        rw [table, Rows.find?_replaceRow, holds.sessions]
        show _ = (((s.sessionSave row).1 :: s.sessions).find? _).map _
        rw [Rows.find?_cons_if]
        show (if (s.sessionSave row).1.1.write _ = id then _ else _) = _
        split
        · rfl
        · rfl
      counter := holds.seqFor row.1 }

/-! ## Messages -/

/-- No row has an id that is new. -/
theorem messages_new (holds : Holds clock s store) {id : Ident}
    (fresh : Fresh (sqliteIds clock) id (s.messages.map (·.id))) :
    ∀ row ∈ store.messages, row.id ≠ id.write (sqliteIds clock) := by
  intro row member same
  have seen : messageView row ∈ s.messages.map (itemView (sqliteIds clock)) := by
    rw [← holds.messages]
    exact List.mem_map_of_mem member
  obtain ⟨m, stored, view⟩ := List.mem_map.mp seen
  have its : m.id.write (sqliteIds clock) = row.id := congrArg Prod.fst view
  exact fresh _ (List.mem_map_of_mem stored) (its.trans same)

theorem messageSave (holds : Holds clock s store) {m : Item Message}
    (fresh : Fresh (sqliteIds clock) (s.idFor m.id) (s.messages.map (·.id)))
    (kept : Kept (sqliteIds clock) s (.messageSave m)) :
    (store.messageSave (clock s.count) (m.message (sqliteIds clock))).1 =
        (s.messageSave m).1.message (sqliteIds clock) ∧
      Holds clock (s.messageSave m).2
        (store.messageSave (clock s.count) (m.message (sqliteIds clock))).2 := by
  obtain ⟨wholeId, wholeSession, storable⟩ := kept
  have id_ := holds.idFor m.id
  have stored : (store.messageSave (clock s.count) (m.message (sqliteIds clock))).1 =
      (s.messageSave m).1.message (sqliteIds clock) := by
    show ({ m.message (sqliteIds clock) with
      id := store.idFor (clock s.count) (m.id.write (sqliteIds clock)) } : Message) = _
    rw [id_]
    rfl
  let session := m.sessionId.write (sqliteIds clock)
  let row : MessageRow :=
    ⟨(s.idFor m.id).write (sqliteIds clock), session,
      Rows.nextValue MessageRow.seq (store.messages.filter (·.sessionId = session)),
      bindBlob (encodeMessage ((s.messageSave m).1.message (sqliteIds clock)))⟩
  have new : ∀ old ∈ store.messages, old.id ≠ row.id := holds.messages_new fresh
  have table : (store.messageSave (clock s.count) (m.message (sqliteIds clock))).2.messages =
      store.messages ++ [row] := by
    have bound : (store.messageSave (clock s.count) (m.message (sqliteIds clock))).2.messages =
        Rows.insertRow MessageRow.id
          ⟨bindText (store.messageSave (clock s.count) (m.message (sqliteIds clock))).1.id,
            bindText session,
            Rows.nextValue MessageRow.seq
              (store.messages.filter (·.sessionId = bindText session)),
            bindBlob (encodeMessage
              (store.messageSave (clock s.count) (m.message (sqliteIds clock))).1)⟩
          store.messages := rfl
    have itsId : bindText ((s.messageSave m).1.message (sqliteIds clock)).id =
        (s.idFor m.id).write (sqliteIds clock) := wholeId
    have itsSession : bindText session = session := wholeSession
    rw [bound, stored, itsId, itsSession]
    exact Rows.insertRow_of_new new
  refine ⟨stored, ?_⟩
  exact
    { holds with
      messages := by
        rw [table, List.map_append, holds.messages]
        show _ = (s.messages ++ [(s.messageSave m).1]).map _
        rw [List.map_append]
        have view : messageView row = itemView (sqliteIds clock) (s.messageSave m).1 := by
          unfold messageView
          rw [storable.readMessage]
          rfl
        rw [List.map_singleton, view]
        rfl
      ascending := by
        rw [table, List.pairwise_append]
        refine ⟨holds.ascending, List.pairwise_singleton _ _, ?_⟩
        intro old member last here same
        obtain rfl := List.mem_singleton.mp here
        exact Rows.lt_nextValue (List.mem_filter.mpr ⟨member, decide_eq_true same⟩)
      counter := holds.seqFor m.id }

theorem messagesBySession (holds : Holds clock s store) {id : Ident}
    (told : Told (sqliteIds clock) id (s.messages.map (·.sessionId)))
    (whole : Whole (id.write (sqliteIds clock))) :
    store.messagesBySession (id.write (sqliteIds clock)) =
      (s.messagesBySession id).map (Item.message (sqliteIds clock)) := by
  have ordered : Rows.orderBy MessageRow.seq
      (store.messages.filter (·.sessionId = id.write (sqliteIds clock))) =
        store.messages.filter (·.sessionId = id.write (sqliteIds clock)) := by
    apply Rows.orderBy_of_ascending
    rw [List.pairwise_filter]
    refine holds.ascending.imp fun less here there => less ?_
    exact (of_decide_eq_true here).trans (of_decide_eq_true there).symm
  have views (rows : List MessageRow) (b : Bytes) :
      (rows.filter (·.sessionId = b)).filterMap (fun row => readMessage row.blob) =
        ((rows.map messageView).filter (·.2.1 = b)).filterMap (·.2.2) := by
    rw [List.filter_map, List.filterMap_map]
    rfl
  have items (list : List (Item Message)) (b : Bytes) :
      ((list.map (itemView (sqliteIds clock))).filter (·.2.1 = b)).filterMap (·.2.2) =
        (list.filter (·.sessionId.write (sqliteIds clock) = b)).map
          (Item.message (sqliteIds clock)) := by
    rw [List.filter_map, List.filterMap_map, ← List.filterMap_eq_map]
    rfl
  unfold SqliteStore.messagesBySession
  rw [whole, ordered, views, holds.messages, items, filter_write told]
  rfl

theorem messageDelete (holds : Holds clock s store) {id : Ident}
    (told : Told (sqliteIds clock) id (s.messages.map (·.id)))
    (whole : Whole (id.write (sqliteIds clock))) :
    (store.messageDelete (id.write (sqliteIds clock))).1 = (s.messageDelete id).1 ∧
      Holds clock (s.messageDelete id).2
        (store.messageDelete (id.write (sqliteIds clock))).2 := by
  have deleted : store.messageDelete (id.write (sqliteIds clock)) =
      (store.messages.any (·.id = id.write (sqliteIds clock)),
        { store with
          messages := store.messages.filter (·.id ≠ id.write (sqliteIds clock)) }) := by
    unfold SqliteStore.messageDelete
    rw [whole]
  rw [deleted]
  constructor
  · have views (rows : List MessageRow) (b : Bytes) :
        rows.any (·.id = b) = (rows.map messageView).any (·.1 = b) := by
      rw [List.any_map]
      rfl
    have items : (s.messages.map (itemView (sqliteIds clock))).any
        (·.1 = id.write (sqliteIds clock)) = s.messages.any (·.id = id) := by
      rw [List.any_map, Bool.eq_iff_iff, List.any_eq_true, List.any_eq_true]
      constructor
      · rintro ⟨m, member, same⟩
        exact ⟨m, member, decide_eq_true ((write_eq_iff told member).mp (of_decide_eq_true same))⟩
      · rintro ⟨m, member, same⟩
        exact ⟨m, member, decide_eq_true ((write_eq_iff told member).mpr (of_decide_eq_true same))⟩
    dsimp only
    rw [views, holds.messages, items]
    rfl
  · exact
      { holds with
        messages := by
          have views (rows : List MessageRow) (b : Bytes) :
              (rows.filter (·.id ≠ b)).map messageView =
                (rows.map messageView).filter (·.1 ≠ b) := by
            rw [List.filter_map]
            rfl
          show (store.messages.filter (·.id ≠ id.write (sqliteIds clock))).map messageView =
            (s.messages.filter (·.id ≠ id)).map (itemView (sqliteIds clock))
          have items : (s.messages.map (itemView (sqliteIds clock))).filter
              (·.1 ≠ id.write (sqliteIds clock)) =
                (s.messages.filter (·.id ≠ id)).map (itemView (sqliteIds clock)) := by
            rw [List.filter_map]
            refine congrArg (List.map _) (List.filter_congr fun m member => ?_)
            exact decide_eq_decide.mpr (not_congr (write_eq_iff told member))
          rw [views, holds.messages, items]
        ascending := holds.ascending.sublist List.filter_sublist }

/-! ## Files -/

/-- A version goes through an `int` without a loss. -/
theorem ofInt_toInt32 (v : UInt32) : UInt32.ofInt v.toInt32.toInt = v := by
  have value : v.toInt32.toInt = (v.toNat : Int).bmod (2 ^ 32) := by
    show v.toBitVec.toInt = _
    rw [BitVec.toInt_eq_toNat_bmod]
    rfl
  have back : (v.toNat : Int).bmod (2 ^ 32) % 2 ^ 32 = v.toNat := by
    have small := v.toNat_lt
    exact (Int.bmod_emod ..).trans (Int.emod_eq_of_lt (by omega) (by omega))
  unfold UInt32.ofInt
  rw [value, back, Int.toNat_natCast, UInt32.ofNat_toNat]

/-- The file of an id. -/
theorem find?_files {rows : List FileRow} {items : List (Item File)}
    (same : rows.map fileView = items.map (Item.file (sqliteIds clock))) (id : Bytes) :
    (rows.find? (·.id = id)).map fileView =
      (items.find? (·.id.write (sqliteIds clock) = id)).map (Item.file (sqliteIds clock)) := by
  have views : (rows.map fileView).find? (·.id = id) =
      (rows.find? (·.id = id)).map fileView := by
    rw [List.find?_map]
    rfl
  have stored : (items.map (Item.file (sqliteIds clock))).find? (·.id = id) =
      (items.find? (·.id.write (sqliteIds clock) = id)).map (Item.file (sqliteIds clock)) := by
    rw [List.find?_map]
    rfl
  rw [← views, same, stored]

/-- The row that a file is bound to. -/
def boundRow (given : Nat → Bytes) (s : Ideal) (f : Item File) : FileRow :=
  ⟨(s.idFor f.id).write given, bindText (f.sessionId.write given), bindText f.body.path,
    f.body.content, (s.newFile f).body.version.toInt32.toInt, f.body.createdAt.toInt64⟩

/-- The files after a save. -/
theorem files_save (holds : Holds clock s store) {f : Item File}
    (told : Told (sqliteIds clock) (s.idFor f.id) (s.files.map (·.id)))
    (kept : Kept (sqliteIds clock) s (.fileSaveVersion f)) :
    (Rows.upsertRow FileRow.id (newVersion f.body.content) (boundRow (sqliteIds clock) s f)
        store.files).map fileView =
      (s.fileSaveVersion f).2.files.map (Item.file (sqliteIds clock)) := by
  have first := find?_files holds.files ((s.idFor f.id).write (sqliteIds clock))
  rw [find?_write told] at first
  cases there : s.files.find? (·.id = s.idFor f.id) with
  | some old =>
      rw [there] at first
      obtain ⟨row, found, -⟩ := Option.map_eq_some_iff.mp first
      have its : row.id = (s.idFor f.id).write (sqliteIds clock) := by
        simpa using List.find?_some found
      have change : Rows.upsertRow FileRow.id (newVersion f.body.content)
          (boundRow (sqliteIds clock) s f) store.files =
            Rows.updateRow FileRow.id ((s.idFor f.id).write (sqliteIds clock))
              (newVersion f.body.content) store.files :=
        Rows.upsertRow_of_mem (List.mem_of_find?_eq_some found) its
      -- the change as one of the files
      let change' : File → File := fun file =>
        { file with content := f.body.content, version := file.version + 1 }
      have views : (Rows.updateRow FileRow.id ((s.idFor f.id).write (sqliteIds clock))
          (newVersion f.body.content) store.files).map fileView =
            Rows.updateRow File.id ((s.idFor f.id).write (sqliteIds clock)) change'
              (store.files.map fileView) := by
        refine Rows.view_updateRow (fun _ _ => Iff.rfl) fun row => ?_
        show (⟨_, _, _, _, UInt32.ofInt (row.version + 1), _⟩ : File) = _
        rw [UInt32.ofInt_add]
        rfl
      have items : (Rows.updateRow Item.id (s.idFor f.id) (Ideal.newContent f.body.content)
          s.files).map (Item.file (sqliteIds clock)) =
            Rows.updateRow File.id ((s.idFor f.id).write (sqliteIds clock)) change'
              (s.files.map (Item.file (sqliteIds clock))) :=
        Rows.view_updateRow (fun _ member => write_eq_iff told member) fun _ => rfl
      rw [change, views, holds.files, ← items, Ideal.fileSaveVersion_of_some there]
  | none =>
      have fresh := fresh_of_find? told there
      rw [there] at first
      have absent := Option.map_eq_none_iff.mp first
      have new : Rows.upsertRow FileRow.id (newVersion f.body.content)
          (boundRow (sqliteIds clock) s f) store.files =
            store.files ++ [boundRow (sqliteIds clock) s f] := by
        refine Rows.upsertRow_of_new fun row member same => ?_
        exact List.find?_eq_none.mp absent row member (decide_eq_true same)
      obtain ⟨-, -, wholes⟩ := kept
      rw [there] at wholes
      obtain ⟨wholeSession, wholePath, -⟩ := wholes
      have view : fileView (boundRow (sqliteIds clock) s f) =
          (s.newFile f).file (sqliteIds clock) := by
        unfold fileView boundRow
        dsimp only
        rw [ofInt_toInt32, wholeSession, wholePath]
        rfl
      rw [new, Ideal.fileSaveVersion_of_none there, List.map_append, List.map_append, holds.files,
        List.map_singleton, view]
      rfl

/-- What the abstract store returns is in it, and is what was to be saved. -/
theorem saved_file {given : Nat → Bytes} {f : Item File}
    (told : Told given (s.idFor f.id) (s.files.map (·.id)))
    (kept : Kept given s (.fileSaveVersion f)) :
    (s.fileSaveVersion f).2.files.find? (·.id.write given = (s.idFor f.id).write given) =
        some (s.fileSaveVersion f).1 ∧
      (s.fileSaveVersion f).1.id = s.idFor f.id ∧
      (s.fileSaveVersion f).1.sessionId = f.sessionId ∧
      (s.fileSaveVersion f).1.body.content = f.body.content ∧
      Plain (s.fileSaveVersion f).1.body.path := by
  obtain ⟨-, -, plain⟩ := kept
  cases there : s.files.find? (·.id = s.idFor f.id) with
  | some old =>
      rw [there] at plain
      have its : old.id = s.idFor f.id := by simpa using List.find?_some there
      rw [Ideal.fileSaveVersion_of_some there]
      refine ⟨?_, its, plain.1.symm, rfl, plain.2⟩
      rw [find?_newContent, find?_write told, there, Option.map_some, if_pos its]
  | none =>
      rw [there] at plain
      rw [Ideal.fileSaveVersion_of_none there]
      refine ⟨?_, rfl, rfl, rfl, plain.2.2⟩
      have last : (s.newFile f).id = s.idFor f.id := rfl
      rw [Rows.find?_concat, find?_of_fresh (fresh_of_find? told there), Option.none_or, last,
        if_pos rfl]

section Statement

variable {given : Nat → Bytes} {now : Int} {f : Item File}

/-- The table after the statement. -/
theorem files_fileSaveVersion
    (itsId : bindText (store.idFor now (f.id.write given)) = (s.idFor f.id).write given)
    (whole : Whole f.body.content) :
    (store.fileSaveVersion now (f.file given)).2.files =
      Rows.upsertRow FileRow.id (newVersion f.body.content) (boundRow given s f) store.files := by
  unfold SqliteStore.fileSaveVersion boundRow Ideal.newFile Item.file
  dsimp only
  rw [itsId, whole]

/-- What is returned when this is the row. -/
theorem returned_fileSaveVersion {row : FileRow}
    (hit : (store.fileSaveVersion now (f.file given)).2.files.find?
      (·.id = bindText (store.idFor now (f.id.write given))) = some row) :
    (store.fileSaveVersion now (f.file given)).1 =
      ⟨store.idFor now (f.id.write given), f.sessionId.write given, cString (fileView row).path,
        f.body.content, (fileView row).version, (fileView row).createdAt⟩ := by
  unfold SqliteStore.fileSaveVersion Item.file at hit ⊢
  dsimp only at hit ⊢
  rw [hit]
  rfl

end Statement

theorem fileSaveVersion (holds : Holds clock s store) {f : Item File}
    (clear : Clear (sqliteIds clock) s (.fileSaveVersion f))
    (kept : Kept (sqliteIds clock) s (.fileSaveVersion f)) :
    (store.fileSaveVersion (clock s.count) (f.file (sqliteIds clock))).1 =
        (s.fileSaveVersion f).1.file (sqliteIds clock) ∧
      Holds clock (s.fileSaveVersion f).2
        (store.fileSaveVersion (clock s.count) (f.file (sqliteIds clock))).2 := by
  have told : Told (sqliteIds clock) (s.idFor f.id) (s.files.map (·.id)) := by
    by_cases absent : f.id = .blank
    · exact told_of_fresh ((if_pos absent).mp clear)
    · rw [show s.idFor f.id = f.id from if_neg absent]
      exact (if_neg absent).mp clear
  have files := holds.files_save told kept
  obtain ⟨found, id_, session, content, plain⟩ := saved_file told kept
  have rest : (s.fileSaveVersion f).2 =
      { s with files := (s.fileSaveVersion f).2.files, count := s.countFor f.id } := by
    cases there : s.files.find? (·.id = s.idFor f.id) with
    | some old => rw [Ideal.fileSaveVersion_of_some there]
    | none => rw [Ideal.fileSaveVersion_of_none there]
  have counter := holds.seqFor f.id
  have itsId : bindText (store.idFor (clock s.count) (f.id.write (sqliteIds clock))) =
      (s.idFor f.id).write (sqliteIds clock) := by
    rw [holds.idFor]
    exact kept.1
  rw [← files_fileSaveVersion itsId kept.2.1] at files
  refine ⟨?_, ?_⟩
  · have first := find?_files files ((s.idFor f.id).write (sqliteIds clock))
    rw [found, ← itsId] at first
    obtain ⟨row, hit, view⟩ := Option.map_eq_some_iff.mp first
    rw [returned_fileSaveVersion hit, view, holds.idFor, ← id_, ← session, ← content]
    unfold Item.file
    rw [cString_of_notMem plain]
  · rw [rest]
    exact { holds with files := files, counter := counter }

theorem filesBySession (holds : Holds clock s store) {id : Ident}
    (told : Told (sqliteIds clock) id (s.files.map (·.sessionId)))
    (kept : Kept (sqliteIds clock) s (.filesBySession id)) :
    store.filesBySession (id.write (sqliteIds clock)) =
      (s.filesBySession id).map (Item.file (sqliteIds clock)) := by
  obtain ⟨whole, plain⟩ := kept
  -- what is read of a file
  let cut : File → File := fun f =>
    { f with
      id := cString f.id
      sessionId := id.write (sqliteIds clock)
      path := cString f.path
      content := cString f.content }
  have views (rows : List FileRow) (b : Bytes) :
      (rows.filter (·.sessionId = b)).map (fun row => cut (fileView row)) =
        ((rows.map fileView).filter (·.sessionId = b)).map cut := by
    rw [List.filter_map, List.map_map]
    rfl
  have items (b : Bytes) : (s.files.map (Item.file (sqliteIds clock))).filter (·.sessionId = b) =
      (s.files.filter (·.sessionId.write (sqliteIds clock) = b)).map
        (Item.file (sqliteIds clock)) := by
    rw [List.filter_map]
    rfl
  have bound : store.filesBySession (id.write (sqliteIds clock)) =
      (store.files.filter (·.sessionId = id.write (sqliteIds clock))).map
        (fun row => cut (fileView row)) := by
    unfold SqliteStore.filesBySession
    rw [whole]
    rfl
  rw [bound, views, holds.files, items, filter_write told, List.map_map]
  refine List.map_congr_left fun f member => ?_
  obtain ⟨plainId, plainPath, plainContent⟩ := plain f member
  have its : f.sessionId = id := by simpa using (List.mem_filter.mp member).2
  show cut (f.file (sqliteIds clock)) = f.file (sqliteIds clock)
  unfold Item.file
  simp only [cut, cString_of_notMem plainId, cString_of_notMem plainPath,
    cString_of_notMem plainContent, its]

end Holds

/-- **The store in a database refines the abstract store.** -/
theorem refines {clock : Nat → Int} {s : Ideal} {store : SqliteStore}
    (holds : Holds clock s store) {request : Request} (clear : Clear (sqliteIds clock) s request)
    (kept : Kept (sqliteIds clock) s request) :
    (store.perform (clock s.count) (request.write (sqliteIds clock))).1 =
        (s.perform request).1.write (sqliteIds clock) ∧
      Holds clock (s.perform request).2
        (store.perform (clock s.count) (request.write (sqliteIds clock))).2 := by
  cases request with
  | sessionGet id => exact ⟨congrArg Response.session (holds.sessionGet clear kept), holds⟩
  | sessionSave row =>
      obtain ⟨same, after⟩ := holds.sessionSave kept
      exact ⟨congrArg Response.session same, after⟩
  | messagesBySession id =>
      exact ⟨congrArg Response.messages (holds.messagesBySession clear kept), holds⟩
  | messageSave m =>
      obtain ⟨same, after⟩ := holds.messageSave clear kept
      exact ⟨congrArg Response.message same, after⟩
  | messageDelete id =>
      obtain ⟨same, after⟩ := holds.messageDelete clear kept
      exact ⟨congrArg Response.deleted same, after⟩
  | fileSaveVersion f =>
      obtain ⟨same, after⟩ := holds.fileSaveVersion clear kept
      exact ⟨congrArg Response.file same, after⟩
  | filesBySession id => exact ⟨congrArg Response.files (holds.filesBySession clear kept), holds⟩

end SqliteStore

end Opencodepp.Store
