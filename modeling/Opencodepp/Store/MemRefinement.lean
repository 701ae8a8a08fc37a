import Opencodepp.Library.Keyed
import Opencodepp.Store.Ideal

/-!
# The store in memory refines the abstract store

`MemStore.Holds` is what the tables of the store have to do with an abstract store whose ids are
rendered as those of the counter.  Every operation keeps it, and returns what the abstract one
does, as long as ids are told apart (`MemStore.refines`).
-/

set_option autoImplicit false

namespace Opencodepp.Store

open Opencodepp.Library
open Opencodepp.Msg

/-- The ids of the counter, which starts at one. -/
def memIds (n : Nat) : Bytes := str "id" ++ decimal (UInt64.ofNat (n + 1)).toNat

theorem memIds_ne_nil (n : Nat) : memIds n ≠ [] := List.cons_ne_nil _ _

namespace MemStore

/-- The store has these objects. -/
structure Holds (s : Ideal) (store : MemStore) : Prop where
  sessions : ∀ id, store.sessions.lookup id =
    (s.sessions.find? (·.1.write memIds = id)).map (writeSession memIds)
  messages : ∀ session, store.messagesBySession session =
    (s.messages.filter (·.sessionId.write memIds = session)).map (Item.message memIds)
  index : ∀ id, store.msgSession.lookup id =
    (s.messages.find? (·.id.write memIds = id)).map (·.sessionId.write memIds)
  distinct : (s.messages.map (·.id.write memIds)).Nodup
  files : ∀ id, store.files.lookup id =
    (s.files.find? (·.id.write memIds = id)).map (Item.file memIds)
  order : ∀ session, store.fileIds session =
    (s.files.filter (·.sessionId.write memIds = session)).map (·.id.write memIds)
  named : (s.files.map (·.id.write memIds)).Nodup
  counter : store.seq = UInt64.ofNat s.count

namespace Holds

theorem empty : Holds .empty .empty where
  sessions := fun _ => rfl
  messages := fun _ => rfl
  index := fun _ => rfl
  distinct := List.nodup_nil
  files := fun _ => rfl
  order := fun _ => rfl
  named := List.nodup_nil
  counter := rfl

variable {s : Ideal} {store : MemStore}

theorem nextId (holds : Holds s store) : store.nextId = memIds s.count := by
  unfold MemStore.nextId memIds
  rw [holds.counter, UInt64.ofNat_add]
  rfl

/-- Both stores save an object under the same id. -/
theorem idFor (holds : Holds s store) (id : Ident) :
    store.idFor (id.write memIds) = (s.idFor id).write memIds := by
  rw [write_idFor memIds_ne_nil, ← holds.nextId]
  rfl

theorem seqFor (holds : Holds s store) (id : Ident) :
    store.seqFor (id.write memIds) = UInt64.ofNat (s.countFor id) := by
  unfold MemStore.seqFor Ideal.countFor
  rw [holds.counter]
  by_cases absent : id = .blank
  · rw [if_pos absent, if_pos ((Ident.write_eq_nil_iff memIds_ne_nil).mpr absent),
      UInt64.ofNat_add]
    rfl
  · rw [if_neg absent, if_neg fun nil => absent ((Ident.write_eq_nil_iff memIds_ne_nil).mp nil)]

/-! ## Sessions -/

theorem sessionGet (holds : Holds s store) {id : Ident}
    (told : Told memIds id (s.sessions.map (·.1))) :
    store.sessionGet (id.write memIds) = writeSession memIds (s.sessionGet id) := by
  unfold MemStore.sessionGet Ideal.sessionGet
  rw [holds.sessions, find?_write told]
  cases s.sessions.find? (·.1 = id) with
  | none => rfl
  | some row => rfl

theorem sessionSave (holds : Holds s store) (row : Ident × Session) :
    (store.sessionSave (writeSession memIds row)).1 = writeSession memIds (s.sessionSave row).1 ∧
      Holds (s.sessionSave row).2 (store.sessionSave (writeSession memIds row)).2 := by
  have id_ := holds.idFor row.1
  have stored : (store.sessionSave (writeSession memIds row)).1 =
      writeSession memIds (s.sessionSave row).1 := by
    show { row.2 with id := store.idFor (row.1.write memIds) } = _
    rw [id_]
    rfl
  refine ⟨stored, ?_⟩
  have table : (store.sessionSave (writeSession memIds row)).2.sessions =
      store.sessions.insert ((s.idFor row.1).write memIds)
        (writeSession memIds (s.sessionSave row).1) := by
    rw [← stored, ← id_]
    rfl
  exact
    { holds with
      sessions := fun id => by
        rw [table]
        show _ = (((s.sessionSave row).1 :: s.sessions).find? _).map _
        have last : (s.sessionSave row).1.1 = s.idFor row.1 := rfl
        rw [Rows.find?_cons_if, last]
        by_cases same : (s.idFor row.1).write memIds = id
        · rw [if_pos same, ← same, AList.lookup_insert]
          rfl
        · rw [if_neg same, AList.lookup_insert_ne (Ne.symm same), holds.sessions]
      counter := holds.seqFor row.1 }

/-! ## Messages -/

theorem messageSave (holds : Holds s store) {m : Item Message}
    (fresh : Fresh memIds (s.idFor m.id) (s.messages.map (·.id))) :
    (store.messageSave (m.message memIds)).1 = (s.messageSave m).1.message memIds ∧
      Holds (s.messageSave m).2 (store.messageSave (m.message memIds)).2 := by
  have id_ := holds.idFor m.id
  have stored : (store.messageSave (m.message memIds)).1 = (s.messageSave m).1.message memIds := by
    show { m.message memIds with id := store.idFor (m.id.write memIds) } = _
    rw [id_]
    rfl
  have index : (store.messageSave (m.message memIds)).2.msgSession =
      store.msgSession.insert ((s.idFor m.id).write memIds) (m.sessionId.write memIds) := by
    rw [← id_]
    rfl
  refine ⟨stored, ?_⟩
  exact
    { holds with
      messages := fun session => by
        rw [store.messagesBySession_messageSave, stored, holds.messages]
        show _ = ((s.messages ++ [(s.messageSave m).1]).filter _).map _
        have last : (s.messageSave m).1.sessionId = m.sessionId := rfl
        have theirs : (m.message memIds).sessionId = m.sessionId.write memIds := rfl
        rw [Rows.filter_concat, last, theirs]
        by_cases here : session = m.sessionId.write memIds
        · rw [if_pos here, if_pos here.symm, List.map_append]
          rfl
        · rw [if_neg here, if_neg (Ne.symm here), List.append_nil]
      index := fun id => by
        rw [index]
        show _ = ((s.messages ++ [(s.messageSave m).1]).find? _).map _
        rw [Rows.find?_concat]
        have last : (s.messageSave m).1.id = s.idFor m.id := rfl
        rw [last]
        by_cases same : (s.idFor m.id).write memIds = id
        · rw [if_pos same, ← same, AList.lookup_insert, find?_of_fresh fresh, Option.none_or]
          rfl
        · rw [AList.lookup_insert_ne (Ne.symm same), holds.index, if_neg same, Option.or_none]
      distinct := by
        show ((s.messages ++ [(s.messageSave m).1]).map _).Nodup
        rw [List.map_append, List.nodup_append]
        refine ⟨holds.distinct, List.nodup_singleton _, ?_⟩
        intro id before id' here same
        obtain ⟨m', member, rfl⟩ := List.mem_map.mp before
        obtain rfl := List.mem_singleton.mp here
        exact fresh _ (List.mem_map_of_mem member) same
      counter := holds.seqFor m.id }

theorem messagesBySession (holds : Holds s store) {id : Ident}
    (told : Told memIds id (s.messages.map (·.sessionId))) :
    store.messagesBySession (id.write memIds) =
      (s.messagesBySession id).map (Item.message memIds) := by
  rw [holds.messages, filter_write told]
  rfl

/-- The messages of a session that a deletion leaves. -/
theorem filter_delete {id : Ident} (told : Told memIds id (s.messages.map (·.id)))
    (session : Bytes) :
    ((s.messageDelete id).2.messages.filter (·.sessionId.write memIds = session)).map
        (Item.message memIds) =
      ((s.messages.filter (·.sessionId.write memIds = session)).map (Item.message memIds)).filter
        (·.id ≠ id.write memIds) := by
  rw [List.filter_map]
  show ((s.messages.filter (·.id ≠ id)).filter _).map _ = _
  rw [List.filter_comm]
  congr 1
  refine List.filter_congr fun m member => decide_eq_decide.mpr (not_congr ?_)
  exact (write_eq_iff told (List.mem_filter.mp member).1).symm

theorem messageDelete (holds : Holds s store) {id : Ident}
    (told : Told memIds id (s.messages.map (·.id))) :
    (store.messageDelete (id.write memIds)).1 = (s.messageDelete id).1 ∧
      Holds (s.messageDelete id).2 (store.messageDelete (id.write memIds)).2 := by
  have kept : s.messages.filter (·.id ≠ id) =
      s.messages.filter (·.id.write memIds ≠ id.write memIds) :=
    List.filter_congr fun m member =>
      decide_eq_decide.mpr (not_congr (write_eq_iff told member).symm)
  have found := holds.index (id.write memIds)
  cases first : s.messages.find? (·.id.write memIds = id.write memIds) with
  | none =>
      rw [first] at found
      have absent : ∀ m ∈ s.messages, m.id ≠ id := by
        intro m member same
        have other := List.find?_eq_none.mp first m member
        exact other (decide_eq_true (same ▸ rfl))
      have unchanged : store.messageDelete (id.write memIds) = (false, store) := by
        unfold MemStore.messageDelete
        rw [found]
        rfl
      have nothing : s.messageDelete id = (false, s) := by
        have all : s.messages.filter (·.id ≠ id) = s.messages :=
          List.filter_eq_self.mpr fun m member => by simpa using absent m member
        unfold Ideal.messageDelete
        rw [all]
        congr 1
        simpa using absent
      rw [unchanged, nothing]
      exact ⟨rfl, holds⟩
  | some m =>
      rw [first] at found
      have member := List.mem_of_find?_eq_some first
      have written : m.id.write memIds = id.write memIds := by
        simpa using List.find?_some first
      have deleted : store.messageDelete (id.write memIds) =
          (true, { store with
            msgs := store.msgs.insert (m.sessionId.write memIds)
              ((store.messagesBySession (m.sessionId.write memIds)).eraseP
                (·.id = id.write memIds))
            msgSession := store.msgSession.erase (id.write memIds) }) := by
        unfold MemStore.messageDelete
        rw [found]
        rfl
      have told_ : (s.messageDelete id).1 = true := by
        show s.messages.any (·.id = id) = true
        rw [List.any_eq_true]
        exact ⟨m, member, decide_eq_true ((write_eq_iff told member).mp written)⟩
      rw [deleted, told_]
      refine ⟨rfl, ?_⟩
      exact
        { holds with
          messages := fun session => by
            rw [filter_delete told]
            refine (MemStore.getD_lookup_insert store.msgs _ session _).trans ?_
            by_cases here : session = m.sessionId.write memIds
            · have distinct : ((store.messagesBySession session).map Message.id).Nodup := by
                rw [holds.messages, List.map_map]
                exact holds.distinct.sublist (List.filter_sublist.map _)
              rw [if_pos here, ← here, Keyed.eraseP_eq_filter distinct, holds.messages]
            · rw [if_neg here]
              refine (holds.messages session).trans (List.filter_eq_self.mpr ?_).symm
              intro m' inside
              obtain ⟨item, found, rfl⟩ := List.mem_map.mp inside
              obtain ⟨item_, home⟩ := List.mem_filter.mp found
              rw [decide_eq_true_iff]
              intro same
              -- the message of the id is in its session and in no other one
              have this := List.inj_on_of_nodup_map holds.distinct item_ member
                (same.trans written.symm)
              rw [← of_decide_eq_true home, this] at here
              exact here rfl
          index := fun b => by
            show (store.msgSession.erase (id.write memIds)).lookup b =
              ((s.messages.filter (·.id ≠ id)).find? _).map _
            rw [kept, Rows.find?_filter_ne]
            by_cases same : id.write memIds = b
            · rw [if_pos same, ← same, AList.lookup_erase]
              rfl
            · rw [if_neg same, AList.lookup_erase_ne (Ne.symm same), holds.index]
          distinct := holds.distinct.sublist (List.filter_sublist.map _) }

/-! ## Files -/

/-- A file that is not there goes to the end. -/
theorem addFile (holds : Holds s store) {f : Item File}
    (fresh : Fresh memIds (s.idFor f.id) (s.files.map (·.id))) :
    (store.addFile (f.file memIds)).1 = (s.fileSaveVersion f).1.file memIds ∧
      Holds (s.fileSaveVersion f).2 (store.addFile (f.file memIds)).2 := by
  have id_ := holds.idFor f.id
  have added : s.fileSaveVersion f =
      (s.newFile f, { s with files := s.files ++ [s.newFile f], count := s.countFor f.id }) := by
    apply Ideal.fileSaveVersion_of_none
    rw [← find?_write (told_of_fresh fresh)]
    exact find?_of_fresh fresh
  have stored : (store.addFile (f.file memIds)).1 = (s.fileSaveVersion f).1.file memIds := by
    show { f.file memIds with
      id := store.idFor (f.id.write memIds)
      version := if f.body.version = 0 then 1 else f.body.version } = _
    rw [id_, added]
    rfl
  have files : (store.addFile (f.file memIds)).2.files =
      store.files.insert ((s.idFor f.id).write memIds) ((s.fileSaveVersion f).1.file memIds) := by
    rw [← stored, ← id_]
    rfl
  have order : (store.addFile (f.file memIds)).2.filesOrder =
      store.filesOrder.insert (f.sessionId.write memIds)
        (store.fileIds (f.sessionId.write memIds) ++ [(s.idFor f.id).write memIds]) := by
    rw [← id_]
    rfl
  have after : (s.fileSaveVersion f).2.files = s.files ++ [(s.fileSaveVersion f).1] := by rw [added]
  have last : (s.fileSaveVersion f).1.id = s.idFor f.id ∧
      (s.fileSaveVersion f).1.sessionId = f.sessionId := by
    rw [added]
    exact ⟨rfl, rfl⟩
  have rest : (s.fileSaveVersion f).2 =
      { s with files := (s.fileSaveVersion f).2.files, count := s.countFor f.id } := by
    rw [added]
  refine ⟨stored, ?_⟩
  rw [rest]
  exact
    { holds with
      files := fun id => by
        show _ = ((s.fileSaveVersion f).2.files.find? _).map _
        rw [files, after, Rows.find?_concat, last.1]
        by_cases same : (s.idFor f.id).write memIds = id
        · rw [if_pos same, ← same, AList.lookup_insert, find?_of_fresh fresh, Option.none_or]
          rfl
        · rw [AList.lookup_insert_ne (Ne.symm same), holds.files, if_neg same, Option.or_none]
      order := fun session => by
        show ((store.addFile (f.file memIds)).2.filesOrder.lookup session).getD [] =
          ((s.fileSaveVersion f).2.files.filter _).map _
        rw [order, MemStore.getD_lookup_insert, after, Rows.filter_concat, last.2, List.map_append]
        by_cases here : session = f.sessionId.write memIds
        · rw [if_pos here, if_pos here.symm, ← here, holds.order, ← last.1]
          rfl
        · rw [if_neg here, if_neg (Ne.symm here)]
          exact (holds.order session).trans (List.append_nil _).symm
      named := by
        show ((s.fileSaveVersion f).2.files.map _).Nodup
        rw [after, List.map_append, List.nodup_append]
        refine ⟨holds.named, List.nodup_singleton _, ?_⟩
        intro id before id' here same
        obtain ⟨f', member, rfl⟩ := List.mem_map.mp before
        obtain rfl := List.mem_singleton.mp here
        exact fresh _ (List.mem_map_of_mem member) (same.trans (congrArg _ last.1))
      counter := holds.seqFor f.id }

/-- A file that is there gets the new content. -/
theorem fileUpdate (holds : Holds s store) {f old : Item File} (some_ : f.id ≠ .blank)
    (told : Told memIds f.id (s.files.map (·.id))) (there : s.files.find? (·.id = f.id) = some old) :
    (store.fileSaveVersion (f.file memIds)).1 = (s.fileSaveVersion f).1.file memIds ∧
      Holds (s.fileSaveVersion f).2 (store.fileSaveVersion (f.file memIds)).2 := by
  have found := holds.files (f.id.write memIds)
  rw [find?_write told, there] at found
  have written : f.id.write memIds ≠ [] := fun nil =>
    some_ ((Ident.write_eq_nil_iff memIds_ne_nil).mp nil)
  have same_ : s.idFor f.id = f.id := if_neg some_
  have count : s.countFor f.id = s.count := if_neg some_
  have ideal : s.fileSaveVersion f =
      (Ideal.newContent f.body.content old,
        { s with
          files := Rows.updateRow Item.id f.id (Ideal.newContent f.body.content) s.files }) := by
    rw [Ideal.fileSaveVersion_of_some (same_.symm ▸ there), same_, count]
  have theirs : store.fileSaveVersion (f.file memIds) =
      ((Ideal.newContent f.body.content old).file memIds,
        { store with
          files := store.files.insert (f.id.write memIds)
            ((Ideal.newContent f.body.content old).file memIds) }) := by
    unfold MemStore.fileSaveVersion
    split
    · next held =>
        cases held.symm.trans found
        exact if_neg written
    · next missing => cases missing.symm.trans found
  rw [ideal, theirs]
  refine ⟨rfl, ?_⟩
  exact
    { holds with
      files := fun id => by
        show (store.files.insert _ _).lookup id = ((Rows.updateRow _ _ _ s.files).find? _).map _
        rw [find?_newContent]
        by_cases same : f.id.write memIds = id
        · rw [← same, AList.lookup_insert, find?_write told, there]
          have its : old.id = f.id := by simpa using List.find?_some there
          rw [Option.map_some, Option.map_some, if_pos its]
        · rw [AList.lookup_insert_ne (Ne.symm same), holds.files]
          cases first : s.files.find? (·.id.write memIds = id) with
          | none => rfl
          | some other =>
              have its : other.id.write memIds = id := by simpa using List.find?_some first
              have different : other.id ≠ f.id := fun this => same (this ▸ its)
              rw [Option.map_some, Option.map_some, if_neg different]
              rfl
      order := fun session => by
        show _ = ((Rows.updateRow _ _ _ s.files).filter _).map _
        rw [filter_newContent]
        exact holds.order session
      named := by
        show ((Rows.updateRow _ _ _ s.files).map _).Nodup
        rw [map_newContent]
        exact holds.named }

theorem fileSaveVersion (holds : Holds s store) {f : Item File}
    (clear : Clear memIds s (.fileSaveVersion f)) :
    (store.fileSaveVersion (f.file memIds)).1 = (s.fileSaveVersion f).1.file memIds ∧
      Holds (s.fileSaveVersion f).2 (store.fileSaveVersion (f.file memIds)).2 := by
  by_cases absent : f.id = .blank
  · have fresh : Fresh memIds (s.idFor f.id) (s.files.map (·.id)) := (if_pos absent).mp clear
    have nil : (f.file memIds).id = [] := (Ident.write_eq_nil_iff memIds_ne_nil).mpr absent
    have added : store.fileSaveVersion (f.file memIds) = store.addFile (f.file memIds) := by
      unfold MemStore.fileSaveVersion
      split
      · exact if_pos nil
      · rfl
    rw [added]
    exact holds.addFile fresh
  · have told : Told memIds f.id (s.files.map (·.id)) := (if_neg absent).mp clear
    cases there : s.files.find? (·.id = f.id) with
    | some old => exact holds.fileUpdate absent told there
    | none =>
        have found := holds.files (f.id.write memIds)
        rw [find?_write told, there] at found
        have added : store.fileSaveVersion (f.file memIds) = store.addFile (f.file memIds) := by
          unfold MemStore.fileSaveVersion
          split
          · next held => cases held.symm.trans found
          · rfl
        rw [added]
        refine holds.addFile ?_
        rw [show s.idFor f.id = f.id from if_neg absent]
        exact fresh_of_find? told there

theorem filesBySession (holds : Holds s store) {id : Ident}
    (told : Told memIds id (s.files.map (·.sessionId))) :
    store.filesBySession (id.write memIds) = (s.filesBySession id).map (Item.file memIds) := by
  unfold MemStore.filesBySession
  rw [holds.order, filter_write told, List.filterMap_map]
  show (s.filesBySession id).filterMap _ = _
  rw [← List.filterMap_eq_map]
  refine List.filterMap_congr fun f member => ?_
  have file := (List.mem_filter.mp member).1
  show store.files.lookup (f.id.write memIds) = some (f.file memIds)
  rw [holds.files]
  -- it is the only file of its id
  have first : ∃ g, s.files.find? (·.id.write memIds = f.id.write memIds) = some g := by
    rw [← Option.isSome_iff_exists, List.find?_isSome]
    exact ⟨f, file, decide_eq_true rfl⟩
  obtain ⟨g, first⟩ := first
  have same : g.id.write memIds = f.id.write memIds := by simpa using List.find?_some first
  rw [first, List.inj_on_of_nodup_map holds.named (List.mem_of_find?_eq_some first) file same]
  rfl

end Holds

/-- **The store in memory refines the abstract store.** -/
theorem refines {s : Ideal} {store : MemStore} (holds : Holds s store) {request : Request}
    (clear : Clear memIds s request) :
    (store.perform (request.write memIds)).1 = (s.perform request).1.write memIds ∧
      Holds (s.perform request).2 (store.perform (request.write memIds)).2 := by
  cases request with
  | sessionGet id => exact ⟨congrArg Response.session (holds.sessionGet clear), holds⟩
  | sessionSave row =>
      obtain ⟨same, after⟩ := holds.sessionSave row
      exact ⟨congrArg Response.session same, after⟩
  | messagesBySession id =>
      exact ⟨congrArg Response.messages (holds.messagesBySession clear), holds⟩
  | messageSave m =>
      obtain ⟨same, after⟩ := holds.messageSave clear
      exact ⟨congrArg Response.message same, after⟩
  | messageDelete id =>
      obtain ⟨same, after⟩ := holds.messageDelete clear
      exact ⟨congrArg Response.deleted same, after⟩
  | fileSaveVersion f =>
      obtain ⟨same, after⟩ := holds.fileSaveVersion clear
      exact ⟨congrArg Response.file same, after⟩
  | filesBySession id => exact ⟨congrArg Response.files (holds.filesBySession clear), holds⟩

end MemStore

end Opencodepp.Store
