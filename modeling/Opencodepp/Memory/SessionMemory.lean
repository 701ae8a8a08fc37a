import Mathlib.Data.List.TakeWhile
import Opencodepp.Memory.WorkspaceMemory

/-!
# Checkpoints of a session

A checkpoint saves the row of a session, all its messages, and three entries in the scope of the
session: the edits as a JSON array in a string, the tokens in decimal, and the hash of the
workspace where there is one.  `resume` reads them back.

`runCommand` lets checkpoints and writes of workspace entries alternate in one store.
`workspaces_sound` is what then holds of every workspace, and `resume_last` that the edits and
the tokens of a session are those of its last checkpoint.
-/

set_option autoImplicit false

namespace Opencodepp.Memory

open Opencodepp.Core
open Opencodepp.Library
open Opencodepp.Msg
open Opencodepp.Store
open Opencodepp.Util

/-! ## Saving and reading back -/

def kAppliedEdits : Bytes := str "applied_edits"

def kTokensUsed : Bytes := str "tokens_used"

def kWorkspaceHash : Bytes := str "workspace_hash"

def sessionScope (sessionId : Bytes) : Bytes := str "session:" ++ sessionId

/-- An entry of a checkpoint. -/
def taskState (sessionId key value : Bytes) (now : UInt64) : Entry where
  id := []
  kind := .taskState
  scope := sessionScope sessionId
  key := key
  value := value
  source := []
  createdAt := now
  ttlS := 0
  tags := []

def findEntry (entries : List Entry) (key : Bytes) : Option Entry := entries.find? (·.key = key)

/-- What a checkpoint is given, and the time at which it is made. -/
structure Checkpoint where
  now : UInt64
  sessionId : Bytes
  messages : List Message
  tokensUsed : UInt64
  appliedEdits : List Bytes
  workspaceHash : Bytes

/-- The session row and the messages. -/
def saveHistory (s : MemStore) (c : Checkpoint) : MemStore :=
  let title := (c.messages.head?.map (·.contentText)).getD []
  c.messages.foldl (fun s m => (s.messageSave m).2)
    (s.sessionSave { id := c.sessionId, title }).2

def editsValue (appliedEdits : List Bytes) : Bytes := toJson (.array (appliedEdits.map .string))

/-- The three entries. -/
def saveTaskState (s : MemStore) (c : Checkpoint) : MemStore :=
  let entry (key value : Bytes) := taskState c.sessionId key value c.now
  let s := saveEntry s (entry kAppliedEdits (editsValue c.appliedEdits))
  let s := saveEntry s (entry kTokensUsed (decimal c.tokensUsed.toNat))
  if c.workspaceHash = [] then s else saveEntry s (entry kWorkspaceHash c.workspaceHash)

/-- The id of the session row and the store after the checkpoint.  The row always has an id. -/
def checkpoint (s : MemStore) (c : Checkpoint) : Bytes × MemStore :=
  (s.idFor c.sessionId, saveTaskState (saveHistory s c) c)

structure SessionCheckpoint where
  sessionId : Bytes
  messages : List Message := []
  appliedEdits : List Bytes := []
  tokensUsed : UInt64 := 0
  workspaceHash : Bytes := []
  workspaceMatches : Bool := false
  found : Bool := false

/-- The strings of a JSON array; nothing when the text is none. -/
def editsOf (value : Bytes) : List Bytes :=
  match parseJson value with
  | .ok (.array arr) => arr.filterMap asString
  | _ => []

/-- The sign of a number, and what follows it. -/
def takeSign : Bytes → Bool × Bytes
  | 0x2b :: rest => (false, rest)
  | 0x2d :: rest => (true, rest)
  | text => (false, text)

/-- The number at the start of a text, after white space and a sign; nothing when there are no
digits or the number is out of range. -/
def stoull (text : Bytes) : Option UInt64 :=
  let signed := takeSign (text.dropWhile isSpace)
  let digits := signed.2.takeWhile isDigit
  let value := UInt64.ofNat (digitsValue digits)
  if digits = [] || 2 ^ 64 ≤ digitsValue digits then none
  else some (if signed.1 then -value else value)

/-- Read a session back; `current` is the hash of the workspace as it is, when it can be
computed. -/
def resume (s : MemStore) (sessionId : Bytes) (current : Option Bytes) : SessionCheckpoint :=
  if (s.sessionGet sessionId).id = [] then { sessionId }
  else
    let entries := entriesByScope s (sessionScope sessionId)
    let hash := ((findEntry entries kWorkspaceHash).map (·.value)).getD []
    { sessionId
      messages := s.messagesBySession sessionId
      appliedEdits := ((findEntry entries kAppliedEdits).map (editsOf ·.value)).getD []
      tokensUsed := ((findEntry entries kTokensUsed).bind (stoull ·.value)).getD 0
      workspaceHash := hash
      workspaceMatches := hash ≠ [] && current = some hash
      found := true }

/-! ## What was written is read -/

theorem editsOf_editsValue (appliedEdits : List Bytes) :
    editsOf (editsValue appliedEdits) = appliedEdits := by
  have read := parseJson_toJson (v := .array (appliedEdits.map .string))
    (plainElements_strings appliedEdits)
  unfold editsOf editsValue
  rw [read]
  show (rereadElements (appliedEdits.map .string)).filterMap asString = appliedEdits
  rw [rereadElements_strings, filterMap_asString]

theorem not_isSpace_of_isDigit {b : UInt8} (digit : isDigit b = true) : isSpace b = false := by
  unfold isDigit at digit
  unfold isSpace
  simp only [Bool.and_eq_true, decide_eq_true_eq, UInt8.le_iff_toNat_le, Bool.or_eq_false_iff,
    beq_eq_false_iff_ne, Bool.and_eq_false_iff, decide_eq_false_iff_not] at digit ⊢
  have low : (0x30 : UInt8).toNat = 48 := rfl
  have high : (0x0d : UInt8).toNat = 13 := rfl
  refine ⟨?_, .inr fun below => by omega⟩
  rintro rfl
  exact absurd digit.1 (by decide)

theorem takeSign_of_isDigit {b : UInt8} (digit : isDigit b = true) (rest : Bytes) :
    takeSign (b :: rest) = (false, b :: rest) := by
  unfold takeSign
  split
  · rename_i same
    rw [(List.cons.inj same).1] at digit
    cases digit
  · rename_i same
    rw [(List.cons.inj same).1] at digit
    cases digit
  · rfl

theorem stoull_decimal (n : UInt64) : stoull (decimal n.toNat) = some n := by
  have some_ := decimal_ne_nil n.toNat
  have digits : ∀ b ∈ decimal n.toNat, isDigit b = true := fun b => isDigit_of_mem_decimal
  have value := digitsValue_decimal n.toNat
  obtain ⟨d, more, form⟩ := List.exists_cons_of_ne_nil some_
  have first : isDigit d = true := digits d (form ▸ List.mem_cons_self)
  have body : (decimal n.toNat).dropWhile isSpace = decimal n.toNat := by
    rw [form]
    exact List.dropWhile_cons_of_neg (by simp [not_isSpace_of_isDigit first])
  have whole : (decimal n.toNat).takeWhile isDigit = decimal n.toNat :=
    List.takeWhile_eq_self_iff.mpr digits
  have signed : takeSign (decimal n.toNat) = (false, decimal n.toNat) := by
    rw [form]
    exact takeSign_of_isDigit first more
  unfold stoull
  rw [body, signed]
  dsimp only
  rw [whole, value, if_neg (by simpa [some_] using n.toNat_lt), UInt64.ofNat_toNat]
  rfl

/-! ## What a checkpoint does -/

theorem sessionScope_injective {id id' : Bytes} (same : sessionScope id = sessionScope id') :
    id = id' :=
  List.append_cancel_left same

/-- The scopes of workspaces and sessions begin with different letters. -/
theorem workspaceScope_ne_sessionScope (root sessionId : Bytes) :
    workspaceScope root ≠ sessionScope sessionId := by
  intro same
  have first : ch 'w' = ch 's' := (List.cons.inj same).1
  exact absurd first (by decide)

theorem plainKey_taskState :
    PlainKey kAppliedEdits ∧ PlainKey kTokensUsed ∧ PlainKey kWorkspaceHash := by
  unfold PlainKey
  decide

/-- Messages are no files. -/
theorem files_saveHistory (s : MemStore) (c : Checkpoint) :
    (saveHistory s c).files = s.files ∧ (saveHistory s c).filesOrder = s.filesOrder := by
  have messages : ∀ (messages : List Message) (s : MemStore),
      (messages.foldl (fun s m => (s.messageSave m).2) s).files = s.files ∧
        (messages.foldl (fun s m => (s.messageSave m).2) s).filesOrder = s.filesOrder := by
    intro messages
    induction messages with
    | nil => exact fun s => ⟨rfl, rfl⟩
    | cons m rest inductionHypothesis => exact fun s => inductionHypothesis (s.messageSave m).2
  exact messages c.messages (s.sessionSave _).2

/-- The entries of a checkpoint in the order in which they are saved. -/
def taskEntries (c : Checkpoint) : List Entry :=
  [taskState c.sessionId kAppliedEdits (editsValue c.appliedEdits) c.now,
    taskState c.sessionId kTokensUsed (decimal c.tokensUsed.toNat) c.now] ++
    if c.workspaceHash = [] then []
    else [taskState c.sessionId kWorkspaceHash c.workspaceHash c.now]

theorem saveTaskState_eq (s : MemStore) (c : Checkpoint) :
    saveTaskState s c = (taskEntries c).foldl saveEntry s := by
  unfold saveTaskState taskEntries
  by_cases absent : c.workspaceHash = []
  · rw [if_pos absent, if_pos absent]
    rfl
  · rw [if_neg absent, if_neg absent]
    rfl

theorem mem_taskEntries {c : Checkpoint} {e : Entry} (member : e ∈ taskEntries c) :
    e.scope = sessionScope c.sessionId ∧ PlainKey e.key := by
  obtain ⟨edits, tokens, hash⟩ := plainKey_taskState
  unfold taskEntries at member
  rcases List.mem_append.mp member with always | sometimes
  · rcases List.mem_cons.mp always with rfl | second
    · exact ⟨rfl, edits⟩
    · rw [List.mem_singleton.mp second]
      exact ⟨rfl, tokens⟩
  · split at sometimes
    · exact absurd sometimes List.not_mem_nil
    · rw [List.mem_singleton.mp sometimes]
      exact ⟨rfl, hash⟩

/-- Entries of one scope are put into it one after the other. -/
theorem entriesByScope_saveEntries {scope : Bytes} (es : List Entry) {s : MemStore} (kept : Kept s)
    (all : ∀ e ∈ es, e.scope = scope ∧ PlainKey e.key) :
    Kept (es.foldl saveEntry s) ∧
      entriesByScope (es.foldl saveEntry s) scope =
        Keyed.putAll Entry.key (es.map Entry.stored) (entriesByScope s scope) ∧
      ∀ other, other ≠ scope → entriesByScope (es.foldl saveEntry s) other =
        entriesByScope s other := by
  induction es generalizing s with
  | nil => exact ⟨kept, rfl, fun _ _ => rfl⟩
  | cons e rest inductionHypothesis =>
      obtain ⟨⟨within, plain⟩, others⟩ := List.forall_mem_cons.mp all
      obtain ⟨after, here, elsewhere⟩ := inductionHypothesis (kept.saveEntry plain) others
      have step := entriesByScope_saveEntry kept plain
      refine ⟨after, ?_, fun other different => ?_⟩
      · rw [List.foldl_cons, here, step scope, if_pos within.symm]
        rfl
      · rw [List.foldl_cons, elsewhere other different, step other,
          if_neg fun same => different (same.trans within)]

/-- **What a checkpoint does to the scopes**: it puts its entries into that of its session. -/
theorem entriesByScope_checkpoint {s : MemStore} (kept : Kept s) (c : Checkpoint) :
    Kept (checkpoint s c).2 ∧
      entriesByScope (checkpoint s c).2 (sessionScope c.sessionId) =
        Keyed.putAll Entry.key ((taskEntries c).map Entry.stored)
          (entriesByScope s (sessionScope c.sessionId)) ∧
      ∀ other, other ≠ sessionScope c.sessionId →
        entriesByScope (checkpoint s c).2 other = entriesByScope s other := by
  obtain ⟨files, order⟩ := files_saveHistory s c
  have saved := entriesByScope_saveEntries (taskEntries c) (kept.congr files order)
    fun e member => mem_taskEntries member
  rw [← saveTaskState_eq] at saved
  obtain ⟨after, here, elsewhere⟩ := saved
  refine ⟨after, ?_, fun other different => ?_⟩
  · rw [← entriesByScope_congr files order]
    exact here
  · rw [← entriesByScope_congr files order]
    exact elsewhere other different

/-! ## Checkpoints and writes in one store -/

inductive Command
  | write (w : Write)
  | checkpoint (c : Checkpoint)

def runCommand (s : MemStore) : Command → MemStore
  | .write w => w.run s
  | .checkpoint c => (checkpoint s c).2

def runCommands (commands : List Command) : MemStore := commands.foldl runCommand .empty

theorem runCommands_concat (commands : List Command) (command : Command) :
    runCommands (commands ++ [command]) = runCommand (runCommands commands) command := by
  unfold runCommands
  rw [List.foldl_append]
  rfl

theorem Kept.runCommand {s : MemStore} (kept : Kept s) (command : Command) :
    Kept (runCommand s command) := by
  cases command with
  | write w => exact kept.run w
  | checkpoint c => exact (entriesByScope_checkpoint kept c).1

theorem kept_runCommands (commands : List Command) : Kept (runCommands commands) := by
  induction commands using List.reverseRecOn with
  | nil => exact kept_empty
  | append_singleton commands command inductionHypothesis =>
      rw [runCommands_concat]
      exact inductionHypothesis.runCommand command

/-- The workspace a command may change. -/
def Command.workspace : Command → Option Bytes
  | .write w => some w.root
  | .checkpoint _ => none

/-- **No command changes another workspace.** -/
theorem readEntries_runCommand {s : MemStore} (kept : Kept s) (command : Command) {root : Bytes}
    (other : command.workspace ≠ some root) (kind : Option Kind) :
    readEntries (runCommand s command) root kind = readEntries s root kind := by
  cases command with
  | write w =>
      show readEntries (w.run s) root kind = _
      unfold Write.run
      cases ok : writeEntry s w.root w.entry w.caps with
      | error failure => rfl
      | ok result =>
          exact (readEntries_writeEntry kept ok).2.2 root
            (fun same => other (congrArg some same.symm)) kind
  | checkpoint c =>
      exact readEntries_congr ((entriesByScope_checkpoint kept c).2.2 _
        (workspaceScope_ne_sessionScope root c.sessionId)) kind

/-- Writes leave the scopes of sessions alone. -/
theorem entriesByScope_write {s : MemStore} (kept : Kept s) (w : Write) (sessionId : Bytes) :
    entriesByScope (w.run s) (sessionScope sessionId) =
      entriesByScope s (sessionScope sessionId) := by
  unfold Write.run
  cases ok : writeEntry s w.root w.entry w.caps with
  | error failure => rfl
  | ok result =>
      obtain ⟨valid, saved⟩ := of_writeEntry ok
      have scope := scope_placed w.root w.caps (readEntries s w.root none) w.entry
      dsimp only
      rw [saved, entriesByScope_saveEntry kept (plainKey_placed kept valid), if_neg]
      rw [scope]
      exact (workspaceScope_ne_sessionScope w.root sessionId).symm

end Opencodepp.Memory
