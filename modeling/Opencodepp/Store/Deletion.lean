import Opencodepp.Library.Keyed
import Opencodepp.Library.Transition
import Opencodepp.Store.MemStore

/-!
# Deletion and generated ids

A deletion goes through the index, in which a second message of an id takes the place of the
first; and the ids of the counter are ids that a caller may also give.  A journal is a store with
the ids of all objects that were ever saved in it.

`Tidy` is what holds where no message is saved under the id of one that is there, and no caller
gives an id that the counter has still to give.  `store_honest` is then what holds of every
operation: a deletion removes every message of its id and no other, and tells the listener when
there was one, and a generated id is new.
-/

set_option autoImplicit false

namespace Opencodepp.Store

open Opencodepp.Library
open Opencodepp.Msg

/-! ## Journals -/

/-- A store and the ids of all objects that were saved in it. -/
structure Journal where
  store : MemStore
  ids : List Bytes

namespace Journal

def empty : Journal := ⟨.empty, []⟩

def step (j : Journal) (op : Op) : Option Journal :=
  some ⟨(j.store.perform op).2, (op.savedId.map j.store.idFor).toList ++ j.ids⟩

end Journal

/-- The id the counter gives when it shows this number. -/
def issuedId (n : Nat) : Bytes := str "id" ++ decimal n

theorem issuedId_injective {m n : Nat} (same : issuedId m = issuedId n) : m = n :=
  decimal_injective (List.append_cancel_left same)

/-! ## The rule for the callers -/

/-- A message with a name is saved while none of that name is there; a caller gives no id that
the counter has still to give; and the counter has a number left for an object without an id. -/
structure Orderly (j : Journal) (op : Op) : Prop where
  new : ∀ m, op = .messageSave m → m.id ≠ [] →
    ∀ session, ∀ m' ∈ j.store.messagesBySession session, m'.id ≠ m.id
  foreign : ∀ id, op.savedId = some id → id ≠ [] →
    ∀ n, j.store.seq.toNat < n → n < 2 ^ 64 → id ≠ issuedId n
  counts : op.savedId = some [] → j.store.seq.toNat + 1 < 2 ^ 64

/-! ## What callers rely on -/

/-- A deletion of an id takes away exactly its messages, and tells whether there were any. -/
structure Deleted (s : MemStore) (id : Bytes) : Prop where
  gone : ∀ session, (s.messageDelete id).2.messagesBySession session =
    (s.messagesBySession session).filter (·.id ≠ id)
  told : (s.messageDelete id).1 = true ↔ ∃ session, ∃ m ∈ s.messagesBySession session, m.id = id

/-- A deletion does what it says, and an id that is generated is none of the ids before. -/
def Honest (j : Journal) : Op → Prop
  | .messageDelete id => Deleted j.store id
  | op => op.savedId = some [] → j.store.idFor [] ∉ j.ids

/-! ## The invariant -/

/-- The index names the session of every message, ids are not repeated, and the ids that the
counter has still to give were not used. -/
structure Tidy (j : Journal) : Prop where
  index : ∀ id session, j.store.msgSession.lookup id = some session ↔
    ∃ m ∈ j.store.messagesBySession session, m.id = id
  distinct : ∀ session, ((j.store.messagesBySession session).map Message.id).Nodup
  recorded : ∀ session, ∀ m ∈ j.store.messagesBySession session, m.id ∈ j.ids
  unspent : ∀ n, j.store.seq.toNat < n → n < 2 ^ 64 → issuedId n ∉ j.ids

namespace Tidy

theorem empty : Tidy .empty where
  index := by
    intro id session
    constructor
    · intro found
      cases found
    · rintro ⟨m, member, -⟩
      cases member
  distinct := fun _ => List.nodup_nil
  recorded := fun _ _ member => absurd member List.not_mem_nil
  unspent := fun _ _ _ => List.not_mem_nil

variable {j : Journal}

/-- A session without messages of the id is left as it is. -/
theorem filter_of_absent {list : List Message} {id : Bytes} (absent : ∀ m ∈ list, m.id ≠ id) :
    list.filter (·.id ≠ id) = list :=
  List.filter_eq_self.mpr fun m member => by simpa using absent m member

/-- **Where the store is tidy a deletion is complete.** -/
theorem deleted (tidy : Tidy j) (id : Bytes) : Deleted j.store id := by
  cases found : j.store.msgSession.lookup id with
  | none =>
      have absent : ∀ session, ∀ m ∈ j.store.messagesBySession session, m.id ≠ id := by
        intro session m member same
        rw [(tidy.index id session).mpr ⟨m, member, same⟩] at found
        cases found
      have unchanged : j.store.messageDelete id = (false, j.store) := by
        unfold MemStore.messageDelete
        rw [found]
      constructor
      · intro session
        rw [unchanged, filter_of_absent (absent session)]
      · rw [unchanged]
        refine ⟨fun impossible => absurd impossible Bool.false_ne_true, ?_⟩
        rintro ⟨session, m, member, same⟩
        exact absurd same (absent session m member)
  | some home =>
      have elsewhere : ∀ session, session ≠ home →
          ∀ m ∈ j.store.messagesBySession session, m.id ≠ id := by
        intro session other m member same
        rw [(tidy.index id session).mpr ⟨m, member, same⟩] at found
        exact other (Option.some.inj found)
      constructor
      · intro session
        have after : (j.store.messageDelete id).2.messagesBySession session =
            if session = home then (j.store.messagesBySession home).eraseP (·.id = id)
            else j.store.messagesBySession session := by
          unfold MemStore.messageDelete
          rw [found]
          exact MemStore.getD_lookup_insert j.store.msgs home session _
        rw [after]
        by_cases here : session = home
        · rw [if_pos here, here, Keyed.eraseP_eq_filter (tidy.distinct home)]
        · rw [if_neg here, filter_of_absent (elsewhere session here)]
      · unfold MemStore.messageDelete
        rw [found]
        exact ⟨fun _ => ⟨home, (tidy.index id home).mp found⟩, fun _ => rfl⟩

/-! ### What keeps it -/

theorem toNat_succ {j : Journal} (counts : j.store.seq.toNat + 1 < 2 ^ 64) :
    (j.store.seq + 1).toNat = j.store.seq.toNat + 1 := by
  rw [UInt64.toNat_add]
  exact Nat.mod_eq_of_lt counts

/-- The id that is given to an object without one. -/
theorem idFor_nil (counts : j.store.seq.toNat + 1 < 2 ^ 64) :
    j.store.idFor [] = issuedId (j.store.seq.toNat + 1) := by
  rw [← toNat_succ counts]
  rfl

/-- **A generated id is new.** -/
theorem idFor_nil_not_mem (tidy : Tidy j) (counts : j.store.seq.toNat + 1 < 2 ^ 64) :
    j.store.idFor [] ∉ j.ids := by
  rw [idFor_nil counts]
  exact tidy.unspent _ (Nat.lt_succ_self _) counts

/-- No message is there under the id a message is saved under. -/
theorem absent_idFor (tidy : Tidy j) {m : Message} (orderly : Orderly j (.messageSave m))
    (session : Bytes) : ∀ m' ∈ j.store.messagesBySession session, m'.id ≠ j.store.idFor m.id := by
  intro m' member
  by_cases named : m.id = []
  · intro same
    rw [named] at same
    refine tidy.idFor_nil_not_mem (orderly.counts (congrArg some named)) ?_
    rw [← same]
    exact tidy.recorded session m' member
  · rw [j.store.idFor_named named]
    exact orderly.new m rfl named session m' member

/-- The counter stays ahead of all ids. -/
theorem unspent_step (tidy : Tidy j) {op : Op} (orderly : Orderly j op) {n : Nat}
    (later : (j.store.perform op).2.seq.toNat < n) (small : n < 2 ^ 64) :
    issuedId n ∉ (op.savedId.map j.store.idFor).toList ++ j.ids := by
  rw [j.store.seq_perform op] at later
  cases saved : op.savedId with
  | none =>
      rw [saved] at later
      exact tidy.unspent n later small
  | some id =>
      rw [saved] at later
      rintro (issued : issuedId n ∈ j.store.idFor id :: j.ids)
      by_cases named : id = []
      · rw [named] at saved later issued
        have counts := orderly.counts saved
        have next : j.store.seq.toNat + 1 < n := by
          rw [← toNat_succ counts]
          exact later
        rcases List.mem_cons.mp issued with here | before
        · rw [idFor_nil counts] at here
          exact absurd (issuedId_injective here) (Nat.ne_of_gt next)
        · exact tidy.unspent n (Nat.lt_of_succ_lt next) small before
      · have still : j.store.seq.toNat < n := by
          have counter : j.store.seqFor id = j.store.seq := if_neg named
          rw [← counter]
          exact later
        rw [j.store.idFor_named named] at issued
        rcases List.mem_cons.mp issued with here | before
        · exact orderly.foreign id saved named n still small here.symm
        · exact tidy.unspent n still small before

/-- A message that is saved joins the index and its session. -/
theorem messageSave (tidy : Tidy j) {m : Message} (orderly : Orderly j (.messageSave m)) :
    Tidy ⟨(j.store.messageSave m).2, j.store.idFor m.id :: j.ids⟩ := by
  have absent := tidy.absent_idFor orderly
  have after := j.store.messagesBySession_messageSave m
  have id_ : (j.store.messageSave m).1.id = j.store.idFor m.id := rfl
  have mem_after (session : Bytes) (m' : Message) :
      m' ∈ (j.store.messageSave m).2.messagesBySession session ↔
        m' ∈ j.store.messagesBySession session ∨
          session = m.sessionId ∧ m' = (j.store.messageSave m).1 := by
    rw [after]
    split <;> simp [*]
  refine ⟨fun id session => ?_, fun session => ?_, fun session m' member => ?_,
    fun n later small => tidy.unspent_step orderly later small⟩
  · have index : (j.store.messageSave m).2.msgSession =
        j.store.msgSession.insert (j.store.idFor m.id) m.sessionId := rfl
    dsimp only
    rw [index]
    by_cases same : id = j.store.idFor m.id
    · rw [same, AList.lookup_insert]
      constructor
      · intro home
        exact ⟨_, (mem_after _ _).mpr (.inr ⟨(Option.some.inj home).symm, rfl⟩), id_⟩
      · rintro ⟨m', member, named⟩
        rcases (mem_after _ _).mp member with before | ⟨here, -⟩
        · exact absurd named (absent session m' before)
        · rw [here]
    · rw [AList.lookup_insert_ne same, tidy.index id session]
      constructor
      · rintro ⟨m', member, named⟩
        exact ⟨m', (mem_after _ _).mpr (.inl member), named⟩
      · rintro ⟨m', member, named⟩
        rcases (mem_after _ _).mp member with before | ⟨-, this⟩
        · exact ⟨m', before, named⟩
        · rw [this, id_] at named
          exact absurd named.symm same
  · dsimp only
    rw [after]
    split
    · rw [List.map_append, List.nodup_append]
      refine ⟨tidy.distinct session, List.nodup_singleton _, ?_⟩
      intro id before id' here same
      obtain ⟨m', member, rfl⟩ := List.mem_map.mp before
      rw [List.map_singleton, List.mem_singleton, id_] at here
      exact absent session m' member (same.trans here)
    · exact tidy.distinct session
  · rcases (mem_after _ _).mp member with before | ⟨-, this⟩
    · exact List.mem_cons_of_mem _ (tidy.recorded session m' before)
    · rw [this, id_]
      exact List.mem_cons_self

/-- A deletion takes the message out of the index, too. -/
theorem messageDelete (tidy : Tidy j) (id : Bytes) :
    Tidy ⟨(j.store.messageDelete id).2, j.ids⟩ := by
  have gone := (tidy.deleted id).gone
  have index : ∀ id', (j.store.messageDelete id).2.msgSession.lookup id' =
      if id' = id then none else j.store.msgSession.lookup id' := by
    intro id'
    unfold MemStore.messageDelete
    cases found : j.store.msgSession.lookup id with
    | none =>
        by_cases same : id' = id
        · rw [if_pos same, same]
          exact found
        · rw [if_neg same]
    | some home =>
        by_cases same : id' = id
        · rw [if_pos same, same]
          exact AList.lookup_erase id _
        · rw [if_neg same]
          exact AList.lookup_erase_ne same
  have counter : (j.store.messageDelete id).2.seq = j.store.seq :=
    j.store.seq_perform (.messageDelete id)
  refine ⟨fun id' session => ?_, fun session => ?_, fun session m' member => ?_,
    fun n later small => ?_⟩
  · dsimp only
    rw [index, gone]
    split
    · next same =>
      refine ⟨fun impossible => absurd impossible (by simp), ?_⟩
      rintro ⟨m', member, named⟩
      have other := (List.mem_filter.mp member).2
      simp [named, same] at other
    · next other =>
      rw [tidy.index id' session]
      constructor
      · rintro ⟨m', member, named⟩
        exact ⟨m', List.mem_filter.mpr ⟨member, by simpa [named] using other⟩, named⟩
      · rintro ⟨m', member, named⟩
        exact ⟨m', (List.mem_filter.mp member).1, named⟩
  · dsimp only
    rw [gone]
    exact (tidy.distinct session).sublist (List.filter_sublist.map _)
  · dsimp only at member
    rw [gone] at member
    exact tidy.recorded session m' (List.mem_filter.mp member).1
  · dsimp only at later
    rw [counter] at later
    exact tidy.unspent n later small

/-- **An orderly step keeps the store tidy.** -/
theorem step (tidy : Tidy j) {op : Op} (orderly : Orderly j op) {next : Journal}
    (stepped : j.step op = some next) : Tidy next := by
  obtain rfl := Option.some.inj stepped
  by_cases saves : ∃ m, op = .messageSave m
  · obtain ⟨m, rfl⟩ := saves
    exact tidy.messageSave orderly
  · by_cases deletes : ∃ id, op = .messageDelete id
    · obtain ⟨id, rfl⟩ := deletes
      exact tidy.messageDelete id
    · obtain ⟨msgs, index⟩ := j.store.messages_perform_of_other
        (fun m same => saves ⟨m, same⟩) fun id same => deletes ⟨id, same⟩
      have messages : (j.store.perform op).2.messagesBySession = j.store.messagesBySession := by
        funext session
        unfold MemStore.messagesBySession
        rw [msgs]
      refine ⟨fun id session => ?_, fun session => ?_, fun session m member => ?_,
        fun n later small => tidy.unspent_step orderly later small⟩
      · dsimp only
        rw [index, messages]
        exact tidy.index id session
      · dsimp only
        rw [messages]
        exact tidy.distinct session
      · dsimp only at member
        rw [messages] at member
        exact List.mem_append_right _ (tidy.recorded session m member)

end Tidy

/-! ## Runs -/

/-- **Every operation of an orderly run is honest**: a deletion takes away exactly the messages
of its id and tells whether there were any, and a generated id is none of those before it. -/
theorem store_honest {actions : List Op} {op : Op} {reached : Journal}
    (orderly : Transition.Meets Journal.step Orderly .empty (actions ++ [op]))
    (ran : Transition.run Journal.step .empty actions = some reached) : Honest reached op := by
  obtain ⟨before, last⟩ := Transition.meets_concat.mp orderly
  have tidy : Tidy reached :=
    Transition.run_invariant (fun holds met stepped => holds.step met stepped) .empty before ran
  have met := last reached ran
  have fresh : op.savedId = some [] → reached.store.idFor [] ∉ reached.ids :=
    fun saved => tidy.idFor_nil_not_mem (met.counts saved)
  cases op with
  | messageDelete id => exact tidy.deleted id
  | sessionGet id => exact fresh
  | sessionSave row => exact fresh
  | messagesBySession sessionId => exact fresh
  | messageSave m => exact fresh
  | fileSaveVersion f => exact fresh
  | filesBySession sessionId => exact fresh

/-- The journal after a run; no step of a store fails. -/
def journalAfter (actions : List Op) : Journal :=
  actions.foldl (fun j op => ⟨(j.store.perform op).2,
    (op.savedId.map j.store.idFor).toList ++ j.ids⟩) .empty

theorem run_journalAfter (actions : List Op) :
    Transition.run Journal.step .empty actions = some (journalAfter actions) := by
  unfold journalAfter
  generalize Journal.empty = j
  induction actions generalizing j with
  | nil => rfl
  | cons op rest inductionHypothesis => exact inductionHypothesis _

/-- A message of one part. -/
def remark (id sessionId : Bytes) : Message :=
  ⟨id, sessionId, .user, [], [.text (str "hello")], 0⟩

/-- One message is saved, and deleted again. -/
theorem store_honest_remark :
    Honest (journalAfter [.messageSave (remark (str "m1") (str "s1"))])
      (.messageDelete (str "m1")) := by
  refine @store_honest [.messageSave (remark (str "m1") (str "s1"))] _ _
    ⟨⟨?_, ?_, ?_⟩, ?_⟩ (run_journalAfter _)
  · rintro m - - session m' member
    exact absurd member List.not_mem_nil
  · rintro id saved - n - - same
    obtain rfl := Option.some.inj saved
    have first : some (ch 'm') = some (ch 'i') := congrArg List.head? same
    exact absurd first (by decide)
  · intro saved
    exact absurd (Option.some.inj saved) (by decide)
  · rintro next -
    refine ⟨⟨?_, ?_, ?_⟩, fun _ _ => trivial⟩
    · intro m impossible
      cases impossible
    · intro id impossible
      cases impossible
    · intro impossible
      cases impossible

/-- The agents of two sessions each save their first message, which both call `m1`. -/
def firstMessages : List Op :=
  [.messageSave (remark (str "m1") (str "s1")), .messageSave (remark (str "m1") (str "s2"))]

/-- A caller gives the id that the counter gives next. -/
def counterTaken : List Op := [.messageSave (remark (str "id1") (str "s1"))]

/-- After a deletion one of two messages of the id is still there, a second deletion removes
nothing and tells nobody, and a session without an id gets the one of a message. -/
theorem store_not_honest :
    (∃ reached, Transition.run Journal.step .empty firstMessages = some reached ∧
      ¬Honest reached (.messageDelete (str "m1"))) ∧
    (∃ reached, Transition.run Journal.step .empty
        (firstMessages ++ [.messageDelete (str "m1")]) = some reached ∧
      ¬Honest reached (.messageDelete (str "m1"))) ∧
    (∃ reached, Transition.run Journal.step .empty counterTaken = some reached ∧
      ¬Honest reached (.sessionSave {})) := by
  refine ⟨⟨_, run_journalAfter _, fun deleted => ?_⟩, ⟨_, run_journalAfter _, fun deleted => ?_⟩,
    ⟨_, run_journalAfter _, fun fresh => ?_⟩⟩
  · exact absurd (deleted.gone (str "s1")) (by decide +kernel)
  · exact absurd (deleted.gone (str "s1")) (by decide +kernel)
  · exact fresh rfl (by decide +kernel)

end Opencodepp.Store
