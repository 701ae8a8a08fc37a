import Opencodepp.Agent.Session
import Opencodepp.Memory.Resumption

/-!
# A session that is stored while it runs

Every message of a session is saved when it is appended, and every checkpoint saves the whole
history once more.  The store in memory adds whatever it is given, so that a session resumes with
its own history only when no checkpoint was made after its first message.  A checkpoint without
a hash leaves the one of an earlier checkpoint where it is.  `resumed_iff` says for every run
when a session resumes with its history and the hash of its last checkpoint.
-/

set_option autoImplicit false

namespace Opencodepp.Agent

open Opencodepp.Core
open Opencodepp.Library
open Opencodepp.Memory
open Opencodepp.Msg
open Opencodepp.Provider
open Opencodepp.Store

structure StoredSession where
  id : Bytes
  apiModelName : Bytes
  messages : List Message
  msgSeq : UInt64
  tokensUsed : UInt64
  store : MemStore

namespace StoredSession

def nextMsgId (s : StoredSession) : Bytes := str "m" ++ decimal (s.msgSeq + 1).toNat

/-- Append a message under the next id and save it. -/
def append (s : StoredSession) (role : Role) (model : Bytes) (parts : List Part) (now : UInt64) :
    StoredSession :=
  let m : Message := ⟨s.nextMsgId, s.id, role, model, parts, now⟩
  { s with
    messages := s.messages ++ [m]
    msgSeq := s.msgSeq + 1
    store := (s.store.messageSave m).2 }

def appendUser (s : StoredSession) (now : UInt64) (text : Bytes) : StoredSession :=
  s.append .user [] [.text text] now

def appendAssistant (s : StoredSession) (now : UInt64) (text : Bytes) (calls : List ToolCall)
    (finish : FinishReason) (usage : Usage) : StoredSession :=
  let parts := (if text = [] then [] else [.text text]) ++ calls.map .toolCall ++
    (if finish = .unknown then [] else [.finish finish])
  { s.append .assistant s.apiModelName parts now with
    tokensUsed := accountTokens s.tokensUsed usage }

def appendToolResult (s : StoredSession) (now : UInt64) (callId content : Bytes)
    (isError : Bool) : StoredSession :=
  s.append .user [] [.toolResult ⟨callId, content, isError⟩] now

/-- The checkpoint of the agent; a hash that cannot be computed is empty. -/
def checkpoint (s : StoredSession) (now : UInt64) (appliedEdits : List Bytes)
    (hash : Option Bytes) : StoredSession :=
  { s with
    store := (Memory.checkpoint s.store
      ⟨now, s.id, s.messages, s.tokensUsed, appliedEdits, hash.getD []⟩).2 }

end StoredSession

/-- What happens to a session; an agent also writes into the memory of workspaces. -/
inductive SessionAct
  | appendUser (now : UInt64) (text : Bytes)
  | appendAssistant (now : UInt64) (text : Bytes) (calls : List ToolCall) (finish : FinishReason)
      (usage : Usage)
  | appendToolResult (now : UInt64) (callId content : Bytes) (isError : Bool)
  | checkpoint (now : UInt64) (appliedEdits : List Bytes) (hash : Option Bytes)
  | write (w : Write)

namespace SessionAct

def run (s : StoredSession) : SessionAct → StoredSession
  | .appendUser now text => s.appendUser now text
  | .appendAssistant now text calls finish usage => s.appendAssistant now text calls finish usage
  | .appendToolResult now callId content isError => s.appendToolResult now callId content isError
  | .checkpoint now appliedEdits hash => s.checkpoint now appliedEdits hash
  | .write w => { s with store := w.run s.store }

/-- The hash that a checkpoint is given. -/
def hash? : SessionAct → Option Bytes
  | .checkpoint _ _ hash => some (hash.getD [])
  | _ => none

/-- Whether a message is appended. -/
def appends : SessionAct → Bool
  | .appendUser .. => true
  | .appendAssistant .. => true
  | .appendToolResult .. => true
  | _ => false

end SessionAct

def runActs (s : StoredSession) (acts : List SessionAct) : StoredSession :=
  acts.foldl SessionAct.run s

theorem runActs_concat (s : StoredSession) (acts : List SessionAct) (act : SessionAct) :
    runActs s (acts ++ [act]) = act.run (runActs s acts) := by
  unfold runActs
  rw [List.foldl_append]
  rfl

/-- A session that has just begun: it has no messages, and nothing of it is stored. -/
structure Fresh (s : StoredSession) : Prop where
  named : s.id ≠ []
  messages : s.messages = []
  kept : Kept s.store
  stored : s.store.messagesBySession s.id = []
  hash : taskValue s.store s.id kWorkspaceHash = none

/-- No checkpoint comes after a message. -/
def CheckpointsFirst (acts : List SessionAct) : Prop :=
  acts.Pairwise fun earlier later => earlier.appends = true → later.hash? = none

/-- The hashes of the checkpoints. -/
def hashes (acts : List SessionAct) : List Bytes := acts.filterMap SessionAct.hash?

/-- The last hash is given, or there was none before it either. -/
def HashGiven (acts : List SessionAct) : Prop :=
  (∃ hash, (hashes acts).getLast? = some hash ∧ hash ≠ []) ∨ ∀ hash ∈ hashes acts, hash = []

instance decidableCheckpointsFirst (acts : List SessionAct) : Decidable (CheckpointsFirst acts) :=
  inferInstanceAs (Decidable (acts.Pairwise _))

/-! ## What one act does -/

/-- An act that appends saves one message of the session. -/
theorem run_of_appends {act : SessionAct} (appends : act.appends = true) (s : StoredSession) :
    ∃ m : Message, m.id ≠ [] ∧ m.sessionId = s.id ∧ (act.run s).id = s.id ∧
      (act.run s).messages = s.messages ++ [m] ∧
      (act.run s).store = (s.store.messageSave m).2 := by
  have named : s.nextMsgId ≠ [] := List.append_ne_nil_of_left_ne_nil (by decide) _
  cases act with
  | appendUser now text => exact ⟨_, named, rfl, rfl, rfl, rfl⟩
  | appendAssistant now text calls finish usage => exact ⟨_, named, rfl, rfl, rfl, rfl⟩
  | appendToolResult now callId content isError => exact ⟨_, named, rfl, rfl, rfl, rfl⟩
  | checkpoint now appliedEdits hash => cases appends
  | write w => cases appends

/-- A saved message goes to its session as it is. -/
theorem messagesBySession_save (store : MemStore) {m : Message} (named : m.id ≠ []) :
    (store.messageSave m).2.messagesBySession m.sessionId =
      store.messagesBySession m.sessionId ++ [m] := by
  have stored : (store.messageSave m).1 = m := by
    unfold MemStore.messageSave
    rw [store.idFor_named named]
  rw [MemStore.messagesBySession_messageSave, if_pos rfl, stored]

theorem messagesBySession_saveMessages {sessionId : Bytes} (messages : List Message)
    (own : ∀ m ∈ messages, m.id ≠ [] ∧ m.sessionId = sessionId) : ∀ store : MemStore,
    (messages.foldl (fun s m => (s.messageSave m).2) store).messagesBySession sessionId =
      store.messagesBySession sessionId ++ messages := by
  induction messages with
  | nil => exact fun store => (List.append_nil _).symm
  | cons m rest inductionHypothesis =>
      intro store
      obtain ⟨⟨named, rfl⟩, others⟩ := List.forall_mem_cons.mp own
      rw [List.foldl_cons, inductionHypothesis others, messagesBySession_save store named,
        List.append_assoc]
      rfl

/-- A checkpoint saves the whole history behind what is there. -/
theorem messagesBySession_checkpoint (store : MemStore) (c : Checkpoint)
    (own : ∀ m ∈ c.messages, m.id ≠ [] ∧ m.sessionId = c.sessionId) :
    (Memory.checkpoint store c).2.messagesBySession c.sessionId =
      store.messagesBySession c.sessionId ++ c.messages := by
  show (saveTaskState (saveHistory store c) c).messagesBySession c.sessionId = _
  unfold MemStore.messagesBySession
  rw [saveTaskState_eq, (rest_saveEntries (taskEntries c) _).2]
  exact messagesBySession_saveMessages c.messages own _

/-! ## What a run does -/

/-- What the store has of a session after these acts. -/
structure Recording (acts : List SessionAct) (s : StoredSession) : Prop where
  kept : Kept s.store
  own : ∀ m ∈ s.messages, m.id ≠ [] ∧ m.sessionId = s.id
  silent : s.messages = [] ↔ ∀ act ∈ acts, act.appends = false
  copies : if CheckpointsFirst acts then s.store.messagesBySession s.id = s.messages
    else s.messages.length < (s.store.messagesBySession s.id).length
  hash : (taskValue s.store s.id kWorkspaceHash).getD [] =
    ((hashes acts).filter (· ≠ [])).getLast?.getD []
  row : hashes acts ≠ [] → HasRow s.store s.id

theorem checkpointsFirst_concat_iff (acts : List SessionAct) (act : SessionAct) :
    CheckpointsFirst (acts ++ [act]) ↔ CheckpointsFirst acts ∧
      (act.hash? ≠ none → ∀ earlier ∈ acts, earlier.appends = false) := by
  unfold CheckpointsFirst
  rw [List.pairwise_append]
  constructor
  · rintro ⟨before, -, last⟩
    refine ⟨before, fun checkpoint earlier member => ?_⟩
    by_contra appends
    exact checkpoint (last earlier member act List.mem_cons_self (by simpa using appends))
  · rintro ⟨before, last⟩
    refine ⟨before, List.pairwise_singleton _ _, fun earlier member later here appends => ?_⟩
    rw [List.mem_singleton.mp here]
    by_contra checkpoint
    rw [last checkpoint earlier member] at appends
    cases appends

theorem hashes_concat (acts : List SessionAct) (act : SessionAct) :
    hashes (acts ++ [act]) = hashes acts ++ act.hash?.toList := by
  unfold hashes
  rw [List.filterMap_append]
  refine congrArg (_ ++ ·) ?_
  cases given : act.hash? with
  | none => exact List.filterMap_cons_none given
  | some hash => exact List.filterMap_cons_some given

theorem Recording.append {acts : List SessionAct} {s : StoredSession}
    (recording : Recording acts s) {act : SessionAct} (appends : act.appends = true) :
    Recording (acts ++ [act]) (act.run s) := by
  obtain ⟨m, named, session, id, messages, store⟩ := run_of_appends appends s
  have noHash : act.hash? = none := by cases act <;> first | rfl | cases appends
  have same : hashes (acts ++ [act]) = hashes acts := by
    rw [hashes_concat, noHash]
    exact List.append_nil _
  have first : CheckpointsFirst (acts ++ [act]) ↔ CheckpointsFirst acts := by
    rw [checkpointsFirst_concat_iff]
    exact and_iff_left fun h => absurd noHash h
  have saved := messagesBySession_save s.store named
  rw [session] at saved
  constructor
  · rw [store]
    exact recording.kept.congr rfl rfl
  · rw [id, messages]
    intro x member
    rcases List.mem_append.mp member with old | new
    · exact recording.own x old
    · rw [List.mem_singleton.mp new]
      exact ⟨named, session⟩
  · rw [messages]
    refine ⟨fun nothing => by simp at nothing, fun none_ => ?_⟩
    rw [none_ act (List.mem_append_right _ List.mem_cons_self)] at appends
    cases appends
  · have copies := recording.copies
    rw [id, messages, store, saved]
    by_cases early : CheckpointsFirst acts
    · rw [if_pos early] at copies
      rw [if_pos (first.mpr early), copies]
    · rw [if_neg early] at copies
      rw [if_neg fun h => early (first.mp h)]
      simpa using copies
  · rw [same, id, store]
    exact recording.hash
  · rw [same, id, store]
    exact recording.row

/-- A hash that is given is the last one that is. -/
theorem last_hash_concat (earlier : List Bytes) (hash : Bytes) :
    (((earlier ++ [hash]).filter (· ≠ [])).getLast?).getD [] =
      if hash = [] then ((earlier.filter (· ≠ [])).getLast?).getD [] else hash := by
  rw [List.filter_append]
  by_cases absent : hash = []
  · rw [if_pos absent, List.filter_cons_of_neg (by simpa using absent), List.filter_nil,
      List.append_nil]
  · rw [if_neg absent, List.filter_cons_of_pos (by simpa using absent), List.filter_nil,
      List.getLast?_concat]
    rfl

theorem Recording.checkpoint {acts : List SessionAct} {s : StoredSession}
    (recording : Recording acts s) (named : s.id ≠ []) (now : UInt64) (appliedEdits : List Bytes)
    (hash : Option Bytes) :
    Recording (acts ++ [.checkpoint now appliedEdits hash])
      (s.checkpoint now appliedEdits hash) := by
  let c : Checkpoint := ⟨now, s.id, s.messages, s.tokensUsed, appliedEdits, hash.getD []⟩
  have saved : (Memory.checkpoint s.store c).2.messagesBySession s.id =
      s.store.messagesBySession s.id ++ s.messages :=
    messagesBySession_checkpoint s.store c recording.own
  have given : hashes (acts ++ [.checkpoint now appliedEdits hash]) =
      hashes acts ++ [hash.getD []] := hashes_concat acts _
  constructor
  · exact (entriesByScope_checkpoint recording.kept c).1
  · exact recording.own
  · refine recording.silent.trans ⟨fun none_ act member => ?_, fun none_ act member => ?_⟩
    · rcases List.mem_append.mp member with old | new
      · exact none_ act old
      · rw [List.mem_singleton.mp new]
        rfl
    · exact none_ act (List.mem_append_left _ member)
  · have copies := recording.copies
    show if _ then (Memory.checkpoint s.store c).2.messagesBySession s.id = s.messages
      else s.messages.length < ((Memory.checkpoint s.store c).2.messagesBySession s.id).length
    rw [saved]
    by_cases silent : ∀ act ∈ acts, act.appends = false
    · have nothing := recording.silent.mpr silent
      have early : CheckpointsFirst acts := List.pairwise_of_forall_mem_list fun act member _ _ h =>
        absurd h (by simp [silent act member])
      rw [if_pos early] at copies
      rw [if_pos ((checkpointsFirst_concat_iff acts _).mpr ⟨early, fun _ => silent⟩), copies,
        nothing]
      rfl
    · have late : ¬CheckpointsFirst (acts ++ [.checkpoint now appliedEdits hash]) := fun first =>
        silent (((checkpointsFirst_concat_iff acts _).mp first).2 (Option.some_ne_none _))
      have some_ : 0 < s.messages.length :=
        List.length_pos_iff.mpr fun nothing => silent (recording.silent.mp nothing)
      rw [if_neg late, List.length_append]
      split at copies
      · rw [copies]
        omega
      · omega
  · have value := (taskValue_checkpoint recording.kept c).2.2
    show (taskValue (Memory.checkpoint s.store c).2 c.sessionId kWorkspaceHash).getD [] = _
    rw [given, last_hash_concat, ← recording.hash, value]
    show (if hash.getD [] = [] then _ else _ : Option Bytes).getD [] = _
    split <;> rfl
  · exact fun _ => hasRow_checkpoint s.store (c := c) named

theorem Recording.write {acts : List SessionAct} {s : StoredSession}
    (recording : Recording acts s) (w : Write) :
    Recording (acts ++ [.write w]) { s with store := w.run s.store } := by
  have messages : (w.run s.store).messagesBySession s.id = s.store.messagesBySession s.id := by
    unfold MemStore.messagesBySession
    rw [(rest_write s.store w).2]
  have same : hashes (acts ++ [.write w]) = hashes acts :=
    (hashes_concat acts _).trans (List.append_nil _)
  have first : CheckpointsFirst (acts ++ [.write w]) ↔ CheckpointsFirst acts := by
    rw [checkpointsFirst_concat_iff]
    exact and_iff_left fun h => absurd rfl h
  constructor
  · exact recording.kept.run w
  · exact recording.own
  · refine recording.silent.trans ⟨fun none_ act member => ?_, fun none_ act member => ?_⟩
    · rcases List.mem_append.mp member with old | new
      · exact none_ act old
      · rw [List.mem_singleton.mp new]
        rfl
    · exact none_ act (List.mem_append_left _ member)
  · have copies := recording.copies
    show if _ then (w.run s.store).messagesBySession s.id = s.messages
      else s.messages.length < ((w.run s.store).messagesBySession s.id).length
    rw [messages]
    by_cases early : CheckpointsFirst acts
    · rw [if_pos early] at copies
      rwa [if_pos (first.mpr early)]
    · rw [if_neg early] at copies
      rwa [if_neg fun h => early (first.mp h)]
  · have step : taskValue (runCommand s.store (.write w)) s.id kWorkspaceHash =
        taskValue s.store s.id kWorkspaceHash := taskValue_runCommand recording.kept rfl _
    rw [same, ← recording.hash]
    exact congrArg (Option.getD · []) step
  · rw [same]
    exact fun some_ => (recording.row some_).write w

theorem id_runActs (s : StoredSession) (acts : List SessionAct) : (runActs s acts).id = s.id := by
  induction acts using List.reverseRecOn with
  | nil => rfl
  | append_singleton acts act inductionHypothesis =>
      rw [runActs_concat]
      cases act <;> exact inductionHypothesis

theorem Fresh.recording {s : StoredSession} (fresh : Fresh s) (acts : List SessionAct) :
    Recording acts (runActs s acts) := by
  induction acts using List.reverseRecOn with
  | nil =>
      refine ⟨fresh.kept, ?_, ⟨fun _ _ impossible => absurd impossible List.not_mem_nil,
        fun _ => fresh.messages⟩, ?_, ?_, fun h => absurd rfl h⟩
      · show ∀ m ∈ s.messages, _
        rw [fresh.messages]
        exact fun m member => absurd member List.not_mem_nil
      · have early : CheckpointsFirst [] := List.Pairwise.nil
        rw [if_pos early]
        exact fresh.stored.trans fresh.messages.symm
      · exact congrArg (Option.getD · []) fresh.hash
  | append_singleton acts act inductionHypothesis =>
      rw [runActs_concat]
      have named : (runActs s acts).id ≠ [] := id_runActs s acts ▸ fresh.named
      cases act with
      | appendUser now text => exact inductionHypothesis.append rfl
      | appendAssistant now text calls finish usage => exact inductionHypothesis.append rfl
      | appendToolResult now callId content isError => exact inductionHypothesis.append rfl
      | checkpoint now appliedEdits hash =>
          exact inductionHypothesis.checkpoint named now appliedEdits hash
      | write w => exact inductionHypothesis.write w

/-! ## Resuming -/

/-- The last hash that is given is the last one exactly when that is given, or none was. -/
theorem last_hash_iff (acts : List SessionAct) (some_ : hashes acts ≠ []) :
    ((hashes acts).filter (· ≠ [])).getLast?.getD [] = (hashes acts).getLast?.getD [] ↔
      HashGiven acts := by
  unfold HashGiven
  generalize hashes acts = given at some_
  cases given using List.reverseRecOn with
  | nil => exact absurd rfl some_
  | append_singleton earlier last =>
      rw [last_hash_concat, List.getLast?_concat]
      by_cases absent : last = []
      · subst absent
        rw [if_pos rfl]
        constructor
        · intro same
          refine .inr fun hash member => ?_
          rcases List.mem_append.mp member with old | new
          · by_contra there
            have kept : hash ∈ earlier.filter (· ≠ []) := List.mem_filter.mpr ⟨old, by simpa⟩
            cases found : (earlier.filter (· ≠ [])).getLast? with
            | none =>
                rw [List.getLast?_eq_none_iff.mp found] at kept
                exact absurd kept List.not_mem_nil
            | some final =>
                rw [found] at same
                have real := (List.mem_filter.mp (List.mem_of_getLast? found)).2
                simp [show final = [] from same] at real
          · exact List.mem_singleton.mp new
        · rintro (⟨hash, same, real⟩ | none_)
          · cases same
            exact absurd rfl real
          · rw [List.filter_eq_nil_iff.mpr fun hash member => by
              simp [none_ hash (List.mem_append_left _ member)]]
            rfl
      · rw [if_neg absent]
        exact ⟨fun _ => .inl ⟨last, rfl, absent⟩, fun _ => rfl⟩

/-- **A session resumes with its history and its last hash exactly when** no checkpoint was made
after its first message, and the last checkpoint was given a hash unless none was. -/
theorem resumed_iff {s : StoredSession} (fresh : Fresh s) (acts : List SessionAct)
    (some_ : hashes acts ≠ []) (current : Option Bytes) :
    ((resume (runActs s acts).store s.id current).found = true ∧
      (resume (runActs s acts).store s.id current).messages = (runActs s acts).messages ∧
      (resume (runActs s acts).store s.id current).workspaceHash =
        (hashes acts).getLast?.getD []) ↔
      CheckpointsFirst acts ∧ HashGiven acts := by
  have recording := fresh.recording acts
  have row := recording.row some_
  have copies := recording.copies
  have hash := recording.hash
  rw [id_runActs] at row copies hash
  obtain ⟨found, messages, -, -, saved⟩ := resume_of_row fresh.named row current
  rw [messages, saved, hash, last_hash_iff acts some_]
  constructor
  · rintro ⟨-, same, given⟩
    refine ⟨?_, given⟩
    by_contra late
    rw [if_neg late, same] at copies
    exact absurd copies (Nat.lt_irrefl _)
  · rintro ⟨first, given⟩
    rw [if_pos first] at copies
    exact ⟨found, copies, given⟩

/-! ## A first message -/

def firstSession : StoredSession := ⟨str "s", str "m", [], 0, 0, .empty⟩

theorem fresh_firstSession : Fresh firstSession where
  named := by decide
  messages := rfl
  kept := kept_empty
  stored := rfl
  hash := rfl

/-- A checkpoint before the first message. -/
def checkpointFirst : List SessionAct := [.checkpoint 1 [] (some (str "h")), .appendUser 2 (str "hi")]

theorem resumed_checkpointFirst :
    (resume (runActs firstSession checkpointFirst).store (str "s") none).messages =
      (runActs firstSession checkpointFirst).messages :=
  ((resumed_iff fresh_firstSession checkpointFirst (by decide) none).mpr
    ⟨by decide, .inl ⟨str "h", rfl, by decide⟩⟩).2.1

/-- After a checkpoint the message of the session is there twice, and after one without a hash
the hash of the one before. -/
theorem not_resumed_after_message :
    (runActs firstSession [.appendUser 1 (str "hi"), .checkpoint 2 [] none]).messages.length = 1 ∧
      (resume (runActs firstSession [.appendUser 1 (str "hi"), .checkpoint 2 [] none]).store
        (str "s") none).messages.length = 2 ∧
      (resume (runActs firstSession
        [.checkpoint 1 [] (some (str "h")), .checkpoint 2 [] none]).store
          (str "s") none).workspaceHash = str "h" := by
  decide +kernel

end Opencodepp.Agent
