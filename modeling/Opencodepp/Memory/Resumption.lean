import Opencodepp.Memory.SessionMemory

/-!
# What a session resumes with

The edits and the tokens of a session are those of its last checkpoint, whatever other sessions
and workspaces have stored since (`resume_last`).  The edits go through JSON twice, the tokens
through decimal, and no other row has the id of either.
-/

set_option autoImplicit false

namespace Opencodepp.Memory

open Opencodepp.Core
open Opencodepp.Library
open Opencodepp.Msg
open Opencodepp.Store

/-- The value that is stored for a session under a key. -/
def taskValue (s : MemStore) (sessionId key : Bytes) : Option Bytes :=
  (findEntry (entriesByScope s (sessionScope sessionId)) key).map (·.value)

/-! ## After a checkpoint -/

/-- The values of a checkpoint are found; the hash of an earlier one stays when there is none. -/
theorem taskValue_checkpoint {s : MemStore} (kept : Kept s) (c : Checkpoint) :
    taskValue (checkpoint s c).2 c.sessionId kAppliedEdits = some (editsValue c.appliedEdits) ∧
      taskValue (checkpoint s c).2 c.sessionId kTokensUsed =
        some (decimal c.tokensUsed.toNat) ∧
      taskValue (checkpoint s c).2 c.sessionId kWorkspaceHash =
        if c.workspaceHash = [] then taskValue s c.sessionId kWorkspaceHash
        else some c.workspaceHash := by
  have tokensNotEdits : kTokensUsed ≠ kAppliedEdits := by decide
  have hashNotEdits : kWorkspaceHash ≠ kAppliedEdits := by decide
  have hashNotTokens : kWorkspaceHash ≠ kTokensUsed := by decide
  have found (key : Bytes) : taskValue (checkpoint s c).2 c.sessionId key =
      ((Keyed.lastOf Entry.key ((taskEntries c).map Entry.stored) key).or
        (findEntry (entriesByScope s (sessionScope c.sessionId)) key)).map (·.value) := by
    unfold taskValue findEntry
    rw [(entriesByScope_checkpoint kept c).2.1]
    exact congrArg (Option.map _) (Keyed.find?_putAll Entry.key _ _ key)
  rw [found, found, found]
  unfold taskEntries
  by_cases absent : c.workspaceHash = []
  · rw [if_pos absent, if_pos absent]
    refine ⟨?_, ?_, ?_⟩
    · simp [Keyed.lastOf, Entry.stored, taskState, tokensNotEdits]
    · simp [Keyed.lastOf, Entry.stored, taskState]
    · simp [Keyed.lastOf, Entry.stored, taskState, Ne.symm hashNotTokens, Ne.symm hashNotEdits,
        taskValue]
  · rw [if_neg absent, if_neg absent]
    refine ⟨?_, ?_, ?_⟩
    · simp [Keyed.lastOf, Entry.stored, taskState, tokensNotEdits, hashNotEdits]
    · simp [Keyed.lastOf, Entry.stored, taskState, hashNotTokens]
    · simp [Keyed.lastOf, Entry.stored, taskState]

/-- Entries are no sessions and no messages. -/
theorem rest_saveEntries (es : List Entry) : ∀ s : MemStore,
    (es.foldl saveEntry s).sessions = s.sessions ∧ (es.foldl saveEntry s).msgs = s.msgs := by
  induction es with
  | nil => exact fun s => ⟨rfl, rfl⟩
  | cons e rest inductionHypothesis =>
      intro s
      obtain ⟨sessions, msgs⟩ := inductionHypothesis (saveEntry s e)
      obtain ⟨sessions', msgs'⟩ := s.fileSaveVersion_rest (entryFile e)
      exact ⟨sessions.trans sessions', msgs.trans msgs'⟩

theorem sessions_saveMessages (messages : List Message) : ∀ s : MemStore,
    (messages.foldl (fun s m => (s.messageSave m).2) s).sessions = s.sessions := by
  induction messages with
  | nil => exact fun s => rfl
  | cons m rest inductionHypothesis => exact fun s => inductionHypothesis (s.messageSave m).2

theorem sessions_checkpoint (s : MemStore) (c : Checkpoint) :
    ∃ row : Session, row.id = s.idFor c.sessionId ∧
      (checkpoint s c).2.sessions = s.sessions.insert row.id row := by
  refine ⟨(s.sessionSave { id := c.sessionId
                           title := (c.messages.head?.map (·.contentText)).getD [] }).1, rfl, ?_⟩
  show (saveTaskState (saveHistory s c) c).sessions = _
  rw [saveTaskState_eq, (rest_saveEntries (taskEntries c) _).1]
  exact sessions_saveMessages c.messages _

/-- A session that has a row. -/
def HasRow (s : MemStore) (sessionId : Bytes) : Prop := (s.sessionGet sessionId).id = sessionId

theorem hasRow_checkpoint (s : MemStore) {c : Checkpoint} (named : c.sessionId ≠ []) :
    HasRow (checkpoint s c).2 c.sessionId := by
  obtain ⟨row, id, sessions⟩ := sessions_checkpoint s c
  rw [s.idFor_named named] at id
  unfold HasRow MemStore.sessionGet
  rw [sessions, ← id, AList.lookup_insert]
  rfl

theorem HasRow.checkpoint {s : MemStore} {sessionId : Bytes} (has : HasRow s sessionId)
    (c : Checkpoint) : HasRow (checkpoint s c).2 sessionId := by
  obtain ⟨row, -, sessions⟩ := sessions_checkpoint s c
  unfold HasRow MemStore.sessionGet
  rw [sessions]
  by_cases same : sessionId = row.id
  · rw [same, AList.lookup_insert]
    rfl
  · rw [AList.lookup_insert_ne same]
    exact has

theorem rest_write (s : MemStore) (w : Write) :
    (w.run s).sessions = s.sessions ∧ (w.run s).msgs = s.msgs := by
  unfold Write.run
  cases ok : writeEntry s w.root w.entry w.caps with
  | error failure => exact ⟨rfl, rfl⟩
  | ok result =>
      dsimp only
      rw [(of_writeEntry ok).2]
      exact s.fileSaveVersion_rest _

theorem HasRow.write {s : MemStore} {sessionId : Bytes} (has : HasRow s sessionId) (w : Write) :
    HasRow (w.run s) sessionId := by
  unfold HasRow MemStore.sessionGet
  rw [(rest_write s w).1]
  exact has

/-! ## The last checkpoint -/

/-- A checkpoint of this session. -/
def Command.checkpointOf (sessionId : Bytes) : Command → Option Checkpoint
  | .write _ => none
  | .checkpoint c => if c.sessionId = sessionId then some c else none

def lastCheckpoint (sessionId : Bytes) (commands : List Command) : Option Checkpoint :=
  (commands.filterMap (Command.checkpointOf sessionId)).getLast?

theorem checkpointOf_eq_some_iff {command : Command} {sessionId : Bytes} {c : Checkpoint} :
    command.checkpointOf sessionId = some c ↔
      command = .checkpoint c ∧ c.sessionId = sessionId := by
  cases command with
  | write w => exact ⟨fun impossible => (by cases impossible), fun h => (by cases h.1)⟩
  | checkpoint c' =>
      show (if c'.sessionId = sessionId then some c' else none) = some c ↔ _
      split
      · rename_i same
        constructor
        · rintro ⟨⟩
          exact ⟨rfl, same⟩
        · rintro ⟨⟨⟩, -⟩
          rfl
      · rename_i other
        constructor
        · rintro ⟨⟩
        · rintro ⟨⟨⟩, same⟩
          exact absurd same other

/-- What the store knows of a session's last checkpoint. -/
structure Recorded (s : MemStore) (c : Checkpoint) : Prop where
  row : HasRow s c.sessionId
  edits : taskValue s c.sessionId kAppliedEdits = some (editsValue c.appliedEdits)
  tokens : taskValue s c.sessionId kTokensUsed = some (decimal c.tokensUsed.toNat)

/-- Only a checkpoint of the session changes its values. -/
theorem taskValue_runCommand {s : MemStore} (kept : Kept s) {command : Command} {sessionId : Bytes}
    (other : command.checkpointOf sessionId = none) (key : Bytes) :
    taskValue (runCommand s command) sessionId key = taskValue s sessionId key := by
  unfold taskValue
  refine congrArg (fun entries => (findEntry entries key).map (·.value)) ?_
  cases command with
  | write w => exact entriesByScope_write kept w sessionId
  | checkpoint c =>
      refine (entriesByScope_checkpoint kept c).2.2 _ fun same => ?_
      rw [checkpointOf_eq_some_iff.mpr ⟨rfl, (sessionScope_injective same).symm⟩] at other
      cases other

theorem Recorded.runCommand {s : MemStore} {c : Checkpoint} (recorded : Recorded s c)
    (kept : Kept s) {command : Command} (other : command.checkpointOf c.sessionId = none) :
    Recorded (runCommand s command) c where
  row := by
    cases command with
    | write w => exact recorded.row.write w
    | checkpoint c' => exact recorded.row.checkpoint c'
  edits := (taskValue_runCommand kept other _).trans recorded.edits
  tokens := (taskValue_runCommand kept other _).trans recorded.tokens

theorem recorded_lastCheckpoint {sessionId : Bytes} (named : sessionId ≠ [])
    (commands : List Command) {c : Checkpoint} (last : lastCheckpoint sessionId commands = some c) :
    c.sessionId = sessionId ∧ Recorded (runCommands commands) c := by
  induction commands using List.reverseRecOn generalizing c with
  | nil => cases last
  | append_singleton commands command inductionHypothesis =>
      have kept := kept_runCommands commands
      unfold lastCheckpoint at last
      rw [List.filterMap_append] at last
      rw [runCommands_concat]
      cases kind : command.checkpointOf sessionId with
      | none =>
          rw [List.filterMap_cons_none kind, List.filterMap_nil, List.append_nil] at last
          obtain ⟨same, recorded⟩ := inductionHypothesis last
          exact ⟨same, recorded.runCommand kept (same ▸ kind)⟩
      | some c' =>
          rw [List.filterMap_cons_some kind, List.filterMap_nil, List.getLast?_concat] at last
          cases last
          obtain ⟨rfl, same⟩ := checkpointOf_eq_some_iff.mp kind
          obtain ⟨edits, tokens, -⟩ := taskValue_checkpoint kept c
          exact ⟨same, hasRow_checkpoint _ (same ▸ named), edits, tokens⟩

theorem resume_of_row {s : MemStore} {sessionId : Bytes} (named : sessionId ≠ [])
    (row : HasRow s sessionId) (current : Option Bytes) :
    (resume s sessionId current).found = true ∧
      (resume s sessionId current).messages = s.messagesBySession sessionId ∧
      (resume s sessionId current).appliedEdits =
        ((taskValue s sessionId kAppliedEdits).map editsOf).getD [] ∧
      (resume s sessionId current).tokensUsed =
        ((taskValue s sessionId kTokensUsed).bind stoull).getD 0 ∧
      (resume s sessionId current).workspaceHash =
        (taskValue s sessionId kWorkspaceHash).getD [] := by
  have there : (s.sessionGet sessionId).id ≠ [] := by
    rw [row]
    exact named
  unfold resume taskValue
  rw [if_neg there, Option.map_map, Option.bind_map]
  exact ⟨rfl, rfl, rfl, rfl, rfl⟩

/-- **A session resumes with the edits and the tokens of its last checkpoint**, after any
checkpoints of any sessions and any writes. -/
theorem resume_last (commands : List Command) (sessionId : Bytes) (named : sessionId ≠ [])
    {c : Checkpoint} (last : lastCheckpoint sessionId commands = some c)
    (current : Option Bytes) :
    (resume (runCommands commands) sessionId current).tokensUsed = c.tokensUsed ∧
      (resume (runCommands commands) sessionId current).appliedEdits = c.appliedEdits := by
  obtain ⟨rfl, recorded⟩ := recorded_lastCheckpoint named commands last
  obtain ⟨-, -, edits, tokens, -⟩ := resume_of_row named recorded.row current
  constructor
  · rw [tokens, recorded.tokens]
    show (stoull (decimal c.tokensUsed.toNat)).getD 0 = _
    rw [stoull_decimal]
    rfl
  · rw [edits, recorded.edits]
    exact editsOf_editsValue c.appliedEdits

/-- Two checkpoints of a session, and one of a session whose name ends like a key. -/
def threeCheckpoints : List Command :=
  [.checkpoint ⟨1, str "s", [], 5, [str "old"], []⟩,
    .checkpoint ⟨2, str "s", [], 7, [[0x22, 0x0a], str "b"], []⟩,
    .checkpoint ⟨3, str "s:tokens_used", [], 9, [], []⟩]

theorem resume_last_of_three :
    (resume (runCommands threeCheckpoints) (str "s") none).tokensUsed = 7 ∧
      (resume (runCommands threeCheckpoints) (str "s") none).appliedEdits =
        [[0x22, 0x0a], str "b"] :=
  resume_last threeCheckpoints (str "s") (by decide) rfl none

end Opencodepp.Memory
