import Opencodepp.Config.Schema
import Opencodepp.Util.JsonRoundTrip

/-!
# Entries of the workspace memory

An entry is a value under a key, in a scope, and is kept as a JSON object.  What is written is
checked first: its key has only letters, digits and three marks, and neither key nor value looks
like a secret.  `fromJson_toJson` is the round trip, in which only the two times may change, as
they pass through a double.
-/

set_option autoImplicit false

namespace Opencodepp.Memory

open Opencodepp.Core
open Opencodepp.Library
open Opencodepp.Util

inductive Kind
  | decision
  | fact
  | taskState
  | repoRule
  | lesson
  | userPref
  deriving Repr, DecidableEq

def Kind.all : List Kind := [.decision, .fact, .taskState, .repoRule, .lesson, .userPref]

def kindName : Kind → Bytes
  | .decision => str "decision"
  | .fact => str "fact"
  | .taskState => str "task_state"
  | .repoRule => str "repo_rule"
  | .lesson => str "lesson"
  | .userPref => str "user_pref"

/-- The kind of a name; a name that is none stands for a fact. -/
def kindFromName (s : Bytes) : Kind := (Kind.all.find? (kindName · = s)).getD .fact

theorem kindFromName_kindName (k : Kind) : kindFromName (kindName k) = k := by
  cases k <;> decide

structure Entry where
  id : Bytes
  kind : Kind
  scope : Bytes
  key : Bytes
  value : Bytes
  source : Bytes
  createdAt : UInt64
  ttlS : UInt64
  tags : List Bytes
  deriving Repr, DecidableEq

/-! ## Checks -/

/-- A search that takes no account of case; nothing is found by an empty needle. -/
def containsCi (haystack needle : Bytes) : Bool :=
  needle ≠ [] && occursIn (needle.map lowerByte) (haystack.map lowerByte)

/-- Letters and digits. -/
def isAlnum (b : UInt8) : Bool :=
  isDigit b || (0x41 ≤ b && b ≤ 0x5a) || (0x61 ≤ b && b ≤ 0x7a)

def isKeyChar (b : UInt8) : Bool := isAlnum b || b = 0x2e || b = 0x5f || b = 0x2d

def validKeyChars (key : Bytes) (maxChars : UInt32) : Bool :=
  key ≠ [] && key.length ≤ maxChars.toNat && key.all isKeyChar

def hasSecretValue (key value : Bytes) : Bool :=
  let named (s : Bytes) := containsCi s (str "token") || containsCi s (str "password") ||
    containsCi s (str "secret")
  named key || named value || (str "sk-").isPrefixOf key || (str "sk-").isPrefixOf value ||
    occursIn (str "key=sk-") value

/-- An entry may be written: its kind is always one of the six. -/
def validateEntry (e : Entry) (caps : MemoryCfg) : Except Failure Unit :=
  if !validKeyChars e.key caps.maxKeyChars then .error (.of .eInvalidCfg)
  else if caps.maxValueChars.toNat < e.value.length then .error (.of .eInvalidCfg)
  else if hasSecretValue e.key e.value then .error (.of .eInvalidCfg)
  else .ok ()

theorem validateEntry_eq_ok_iff (e : Entry) (caps : MemoryCfg) :
    validateEntry e caps = .ok () ↔ validKeyChars e.key caps.maxKeyChars = true ∧
      e.value.length ≤ caps.maxValueChars.toNat ∧ hasSecretValue e.key e.value = false := by
  unfold validateEntry
  split_ifs with chars long secret
  · simpa using fun valid => absurd valid (by simpa using chars)
  · simpa using fun _ fits => absurd long (Nat.not_lt.mpr fits)
  · simp [secret]
  · exact ⟨fun _ => ⟨by simpa using chars, Nat.not_lt.mp long, by simpa using secret⟩,
      fun _ => rfl⟩

/-! ## Ids -/

/-- The id an entry is stored under. -/
def entryId (scope key : Bytes) : Bytes := str "mem:" ++ scope ++ str ":" ++ key

/-- A key in which the separator of ids does not occur. -/
def PlainKey (key : Bytes) : Prop := (0x3a : UInt8) ∉ key

/-- The bytes that are allowed in a key do not include the separator. -/
theorem plainKey_of_validateEntry {e : Entry} {caps : MemoryCfg}
    (valid : validateEntry e caps = .ok ()) : PlainKey e.key := by
  have chars := ((validateEntry_eq_ok_iff e caps).mp valid).1
  intro member
  have allowed := List.all_eq_true.mp ((Bool.and_eq_true ..).mp chars).2 _ member
  exact absurd allowed (by decide)

/-- **An id tells both scope and key**, whatever bytes the scope has. -/
theorem entryId_inj {scope scope' key key' : Bytes} (plain : PlainKey key) (plain' : PlainKey key') :
    entryId scope key = entryId scope' key' ↔ scope = scope' ∧ key = key' := by
  refine ⟨fun same => ?_, fun ⟨scopes, keys⟩ => by rw [scopes, keys]⟩
  have ids : scope ++ 0x3a :: key = scope' ++ 0x3a :: key' := by
    unfold entryId at same
    rw [List.append_assoc, List.append_assoc, List.append_assoc, List.append_assoc] at same
    exact List.append_cancel_left same
  rcases List.append_eq_append_iff.mp ids with ⟨more, shift, rest⟩ | ⟨more, shift, rest⟩
  · cases more with
    | nil => exact ⟨by simpa using shift.symm, (List.cons.inj rest).2⟩
    | cons b more =>
        refine absurd ?_ plain
        rw [(List.cons.inj rest).2]
        simp
  · cases more with
    | nil => exact ⟨by simpa using shift, (List.cons.inj rest).2.symm⟩
    | cons b more =>
        refine absurd ?_ plain'
        rw [(List.cons.inj rest).2]
        simp

/-! ## Serialization -/

/-- A count as a double. -/
def asDouble (t : UInt64) : JVal := .number (roundBinary64 t.toNat 1)

/-- The members of an entry's object; an entry without tags has no such member. -/
def entryMembers (e : Entry) : List (Bytes × JVal) :=
  [(str "id", .string e.id), (str "kind", .string (kindName e.kind)),
    (str "scope", .string e.scope), (str "key", .string e.key), (str "value", .string e.value),
    (str "source", .string e.source), (str "created_at", asDouble e.createdAt),
    (str "ttl_s", asDouble e.ttlS)] ++
    if e.tags = [] then [] else [(str "tags", .array (e.tags.map .string))]

def Entry.toJson (e : Entry) : Bytes := Util.toJson (.object (entryMembers e))

def asString : JVal → Option Bytes
  | .string s => some s
  | _ => none

/-- The entry of an object; what is missing or of another kind is empty. -/
def entryOf (root : JVal) : Entry where
  id := (root.findString (str "id")).getD []
  kind := kindFromName ((root.findString (str "kind")).getD [])
  scope := (root.findString (str "scope")).getD []
  key := (root.findString (str "key")).getD []
  value := (root.findString (str "value")).getD []
  source := (root.findString (str "source")).getD []
  createdAt := toUInt64 ((root.findNumber (str "created_at")).getD 0)
  ttlS := toUInt64 ((root.findNumber (str "ttl_s")).getD 0)
  tags := ((root.findArray (str "tags")).getD []).filterMap asString

def Entry.fromJson (json : Bytes) : Except Failure Entry :=
  match parseJson json with
  | .error e => .error e
  | .ok (.object obj) => .ok (entryOf (.object obj))
  | .ok _ => .error (.of .eProtoParse)

/-! ## The round trip -/

/-- A count that has passed through the digits of a double. -/
def rereadTime (t : UInt64) : UInt64 := toUInt64 (rereadNumber (roundBinary64 t.toNat 1))

/-- An entry as it comes back. -/
def Entry.stored (e : Entry) : Entry :=
  { e with createdAt := rereadTime e.createdAt, ttlS := rereadTime e.ttlS }

theorem rereadElements_strings (strings : List Bytes) :
    rereadElements (strings.map .string) = strings.map .string := by
  induction strings with
  | nil => rfl
  | cons s rest inductionHypothesis =>
      show JVal.string s :: rereadElements (rest.map .string) = _
      rw [inductionHypothesis]
      rfl

theorem plainElements_strings (strings : List Bytes) : plainElements (strings.map .string) := by
  induction strings with
  | nil => trivial
  | cons s rest inductionHypothesis => exact ⟨trivial, inductionHypothesis⟩

theorem filterMap_asString (strings : List Bytes) :
    (strings.map JVal.string).filterMap asString = strings := by
  induction strings with
  | nil => rfl
  | cons s rest inductionHypothesis => exact congrArg (s :: ·) inductionHypothesis

theorem plainMembers_entryMembers (e : Entry) : plainMembers (entryMembers e) := by
  unfold entryMembers
  by_cases untagged : e.tags = []
  · rw [if_pos untagged]
    refine ⟨?_, trivial, ?_, trivial, ?_, trivial, ?_, trivial, ?_, trivial, ?_, trivial, ?_,
      trivial, ?_, trivial, trivial⟩ <;> decide
  · rw [if_neg untagged]
    refine ⟨?_, trivial, ?_, trivial, ?_, trivial, ?_, trivial, ?_, trivial, ?_, trivial, ?_,
      trivial, ?_, trivial, ?_, plainElements_strings e.tags, trivial⟩ <;>
      decide

/-- **An entry is read back** but for the rounding of its times. -/
theorem fromJson_toJson (e : Entry) : Entry.fromJson e.toJson = .ok e.stored := by
  have read := parseJson_toJson (v := .object (entryMembers e)) (plainMembers_entryMembers e)
  unfold Entry.fromJson Entry.toJson
  rw [read]
  show Except.ok (entryOf (.object (rereadMembers (entryMembers e)))) = _
  refine congrArg Except.ok ?_
  have kind := kindFromName_kindName e.kind
  unfold entryMembers
  by_cases untagged : e.tags = []
  · rw [if_pos untagged]
    show (⟨e.id, kindFromName (kindName e.kind), e.scope, e.key, e.value, e.source,
      rereadTime e.createdAt, rereadTime e.ttlS, []⟩ : Entry) = e.stored
    rw [kind, ← untagged]
    rfl
  · rw [if_neg untagged]
    show (⟨e.id, kindFromName (kindName e.kind), e.scope, e.key, e.value, e.source,
      rereadTime e.createdAt, rereadTime e.ttlS,
      (rereadElements (e.tags.map .string)).filterMap asString⟩ : Entry) = e.stored
    rw [kind, rereadElements_strings, filterMap_asString]
    rfl

end Opencodepp.Memory
