import Opencodepp.Library.Transition
import Opencodepp.Store.MemRefinement
import Opencodepp.Store.SqliteRefinement

/-!
# The two stores agree

Both stores are asked for the same in lockstep, each in the ids that it gave itself.  As both
refine the abstract store, they return the same up to those ids wherever the requests so far kept
to what both can do (`stores_agree`).  They part over a message whose id is in the database
already, over a file that is saved again for another session, and over a zero byte in a text
(`stores_part`).
-/

set_option autoImplicit false

namespace Opencodepp.Store

open Opencodepp.Library
open Opencodepp.Msg

/-- The two stores, and what their caller knows of both. -/
structure Stores where
  ideal : Ideal
  mem : MemStore
  sqlite : SqliteStore

namespace Stores

def empty : Stores := ⟨.empty, .empty, .empty⟩

/-- The result of the store in memory. -/
def memResponse (stores : Stores) (request : Request) : Response :=
  (stores.mem.perform (request.write memIds)).1

/-- The result of the store in the database. -/
def sqliteResponse (clock : Nat → Int) (stores : Stores) (request : Request) : Response :=
  (stores.sqlite.perform (clock stores.ideal.count) (request.write (sqliteIds clock))).1

def step (clock : Nat → Int) (stores : Stores) (request : Request) : Option Stores :=
  some
    ⟨(stores.ideal.perform request).2, (stores.mem.perform (request.write memIds)).2,
      (stores.sqlite.perform (clock stores.ideal.count) (request.write (sqliteIds clock))).2⟩

/-- The results are one reply, each with the ids that its store gave. -/
def Agree (clock : Nat → Int) (stores : Stores) (request : Request) : Prop :=
  ∃ reply : Reply, stores.memResponse request = reply.write memIds ∧
    stores.sqliteResponse clock request = reply.write (sqliteIds clock)

/-- Both stores tell the ids of the request from others, and the database keeps what it gets. -/
structure Common (clock : Nat → Int) (stores : Stores) (request : Request) : Prop where
  mem : Clear memIds stores.ideal request
  sqlite : Clear (sqliteIds clock) stores.ideal request
  kept : Kept (sqliteIds clock) stores.ideal request

/-- Both stores have the objects that their caller knows of. -/
structure Hold (clock : Nat → Int) (stores : Stores) : Prop where
  mem : stores.mem.Holds stores.ideal
  sqlite : stores.sqlite.Holds clock stores.ideal

variable {clock : Nat → Int} {stores : Stores} {request : Request}

theorem Hold.empty (clock : Nat → Int) : Hold clock .empty := ⟨.empty, .empty clock⟩

theorem Hold.agree (hold : Hold clock stores) (common : Common clock stores request) :
    Agree clock stores request :=
  ⟨(stores.ideal.perform request).1, (MemStore.refines hold.mem common.mem).1,
    (SqliteStore.refines hold.sqlite common.sqlite common.kept).1⟩

theorem Hold.step (hold : Hold clock stores) (common : Common clock stores request)
    {next : Stores} (stepped : stores.step clock request = some next) : Hold clock next := by
  obtain rfl := Option.some.inj stepped
  exact ⟨(MemStore.refines hold.mem common.mem).2,
    (SqliteStore.refines hold.sqlite common.sqlite common.kept).2⟩

end Stores

open Stores

/-- **The stores agree** on a request after requests that both of them can do. -/
theorem stores_agree {clock : Nat → Int} {requests : List Request} {request : Request}
    {reached : Stores}
    (common : Transition.Meets (step clock) (Common clock) .empty (requests ++ [request]))
    (ran : Transition.run (step clock) .empty requests = some reached) :
    Agree clock reached request := by
  obtain ⟨before, last⟩ := Transition.meets_concat.mp common
  have hold : Hold clock reached :=
    Transition.run_invariant (fun holds met stepped => holds.step met stepped) (.empty clock)
      before ran
  exact hold.agree (last reached ran)

/-! ## Examples -/

/-- A clock that stands. -/
def noon : Nat → Int := fun _ => 1700000000000

/-- A message of one part, its ids aside. -/
def hello : Message := ⟨[], [], .user, [], [.text (str "hello")], 0⟩

def session (id : String) : Ident := .named (str id)

theorem storable_hello (m : Message) (parts : m.parts = hello.parts) (id : Msg.Sized m.id)
    (sessionId : Msg.Sized m.sessionId) (model : Msg.Sized m.model)
    (small : (encodeMessage m).length < 2 ^ 31) : Storable m where
  sized :=
    { id, sessionId, model
      parts := by
        rw [parts]
        intro p member
        obtain rfl := List.mem_singleton.mp member
        show (str "hello").length < 2 ^ 64
        decide
      count := by
        rw [parts]
        decide }
  few := by
    rw [parts]
    decide
  small

/-- A message without an id is saved, and its session is read. -/
theorem stores_agree_hello :
    Agree noon
      ⟨(Ideal.empty.messageSave ⟨.blank, session "s1", hello⟩).2,
        (MemStore.empty.messageSave { hello with sessionId := str "s1" }).2,
        (SqliteStore.empty.messageSave 1700000000000 { hello with sessionId := str "s1" }).2⟩
      (.messagesBySession (session "s1")) := by
  refine @stores_agree noon [.messageSave ⟨.blank, session "s1", hello⟩] _ _
    ⟨⟨by decide, by decide, by decide +kernel, by decide +kernel, ?_⟩, ?_⟩ rfl
  · exact storable_hello _ rfl (by unfold Msg.Sized; decide +kernel)
      (by unfold Msg.Sized; decide +kernel) (by unfold Msg.Sized; decide +kernel)
      (by decide +kernel)
  · rintro next same
    obtain rfl := Option.some.inj same
    exact ⟨⟨by decide +kernel, by decide +kernel, by unfold Kept; decide +kernel⟩,
      fun _ _ => trivial⟩

/-- The agents of two sessions each save their first message, which both call `m1`. -/
def twoSessions : List Request :=
  [.messageSave ⟨session "m1", session "s1", hello⟩,
    .messageSave ⟨session "m1", session "s2", hello⟩]

/-- A file, its ids aside. -/
def notes : File := ⟨[], [], str "notes.txt", str "one", 1, 0⟩

/-- A title with a zero byte. -/
def zeroTitle : Session := { title := [0x61, 0x00, 0x62] }

/-- An id that the store in memory renders as one that it does not give is the caller's. -/
theorem eq_of_write_memIds {id : Ident} {written : Bytes} (rendered : written = id.write memIds)
    (foreign : written.head? ≠ some (ch 'i')) : id = .named written := by
  cases id with
  | named id => rw [rendered, Ident.write]
  | made n =>
      rw [rendered] at foreign
      exact absurd rfl foreign

/-- The second of two messages of an id is in the store in memory and not in the database; a file
that is saved for another session is returned with the old one and with the new one; and a title
is read up to its first zero byte. -/
theorem stores_part :
    (∃ reached, Transition.run (step noon) .empty twoSessions = some reached ∧
      ¬Agree noon reached (.messagesBySession (session "s2"))) ∧
    (∃ reached, Transition.run (step noon) .empty
        [.fileSaveVersion ⟨session "f1", session "s1", notes⟩] = some reached ∧
      ¬Agree noon reached (.fileSaveVersion ⟨session "f1", session "s2", notes⟩)) ∧
    (∃ reached, Transition.run (step noon) .empty
        [.sessionSave (session "s1", zeroTitle)] = some reached ∧
      ¬Agree noon reached (.sessionGet (session "s1"))) := by
  refine ⟨⟨_, rfl, ?_⟩, ⟨_, rfl, ?_⟩, ⟨_, rfl, ?_⟩⟩
  · rintro ⟨reply, mem, sqlite⟩
    have two : reply.write memIds = .messages [{ hello with id := str "m1", sessionId := str "s2" }] :=
      mem.symm.trans (by decide +kernel)
    have none_ : reply.write (sqliteIds noon) = .messages [] :=
      sqlite.symm.trans (by decide +kernel)
    cases reply with
    | messages list =>
        have nil := List.map_eq_nil_iff.mp (Response.messages.inj none_)
        rw [nil] at two
        cases two
    | session | message | deleted | file | files => cases two
  · rintro ⟨reply, mem, sqlite⟩
    have old : reply.write memIds =
        .file { notes with id := str "f1", sessionId := str "s1", version := 2 } :=
      mem.symm.trans (by decide +kernel)
    have new : reply.write (sqliteIds noon) =
        .file { notes with id := str "f1", sessionId := str "s2", version := 2 } :=
      sqlite.symm.trans (by decide +kernel)
    cases reply with
    | file f =>
        have before : f.sessionId.write memIds = str "s1" :=
          congrArg File.sessionId (Response.file.inj old)
        have after : f.sessionId.write (sqliteIds noon) = str "s2" :=
          congrArg File.sessionId (Response.file.inj new)
        rw [eq_of_write_memIds before.symm (by decide)] at after
        exact absurd after (by decide)
    | session | message | deleted | messages | files => cases old
  · rintro ⟨reply, mem, sqlite⟩
    have whole : reply.write memIds = .session { zeroTitle with id := str "s1" } :=
      mem.symm.trans (by decide +kernel)
    have cut : reply.write (sqliteIds noon) =
        .session { title := [0x61], id := str "s1" } :=
      sqlite.symm.trans (by decide +kernel)
    cases reply with
    | session row =>
        have before : row.2.title = [0x61, 0x00, 0x62] :=
          congrArg Session.title (Response.session.inj whole)
        have after : row.2.title = [0x61] := congrArg Session.title (Response.session.inj cut)
        exact absurd (before.symm.trans after) (by decide)
    | file | message | deleted | messages | files => cases whole

end Opencodepp.Store
