import Opencodepp.Msg.Message
import Opencodepp.Util.Base64
import Opencodepp.Util.JsonCounts

/-!
# Messages as JSON

Every part is an object with its kind and the fields of the kind; binary data is in base64.  The
reader takes what is missing, or of another type, as empty, and refuses only what has no body or
an unknown role or kind; a reader that fails leaves the fields it has read in its target.

`fromJson_toJson` is the round trip of the values, and `fromJson_parseJson_toJson` that of the
texts, which adds the escapes of the strings and the digits of the time.
-/

set_option autoImplicit false

namespace Opencodepp.Msg

open Opencodepp.Core
open Opencodepp.Library
open Opencodepp.Util

/-! ## Names -/

def Role.fromString (s : Bytes) : Option Role :=
  if s = str "user" then some .user
  else if s = str "assistant" then some .assistant
  else if s = str "system" then some .system
  else if s = str "tool" then some .tool
  else none

def FinishReason.fromString (s : Bytes) : Option FinishReason :=
  if s = str "end_turn" then some .endTurn
  else if s = str "max_tokens" then some .maxTokens
  else if s = str "tool_use" then some .toolUse
  else if s = str "canceled" then some .canceled
  else if s = str "error" then some .error
  else if s = str "permission_denied" then some .permissionDenied
  else if s = str "unknown" then some .unknown
  else none

@[simp] theorem Role.fromString_toBytes (r : Role) : Role.fromString r.toBytes = some r := by
  cases r <;> decide

@[simp] theorem FinishReason.fromString_toBytes (r : FinishReason) :
    FinishReason.fromString r.toBytes = some r := by
  cases r <;> decide

/-! ## The writer -/

/-- The object of a part.  The encoding of no bytes is the empty string. -/
def Part.toJson : Part → JVal
  | .text content => .object [(str "kind", .string (str "text")), (str "content", .string content)]
  | .reasoning content =>
      .object [(str "kind", .string (str "reasoning")), (str "content", .string content)]
  | .imageUrl url => .object [(str "kind", .string (str "image_url")), (str "url", .string url)]
  | .binary mime data =>
      .object [(str "kind", .string (str "binary")), (str "mime", .string mime),
        (str "data", .string (b64Encode data))]
  | .toolCall t =>
      .object [(str "kind", .string (str "tool_call")), (str "id", .string t.id),
        (str "name", .string t.name), (str "input_json", .string t.inputJson),
        (str "finished", .boolean t.finished)]
  | .toolResult r =>
      .object [(str "kind", .string (str "tool_result")), (str "call_id", .string r.callId),
        (str "content", .string r.content), (str "is_error", .boolean r.isError)]
  | .finish reason =>
      .object [(str "kind", .string (str "finish")), (str "reason", .string reason.toBytes)]

/-- The object of a message; the time becomes a double. -/
def Message.toJson (m : Message) : JVal :=
  .object [(str "id", .string m.id), (str "session_id", .string m.sessionId),
    (str "role", .string m.role.toBytes), (str "model", .string m.model),
    (str "created_at", .number (roundBinary64 m.createdAt.toNat 1)),
    (str "parts", .array (m.parts.map Part.toJson))]

/-! ## The reader -/

/-- A refusal of the reader. -/
def jsonRefusal (detail : UInt32) : Failure := ⟨⟨.eProtoParse, detail⟩, rfl⟩

/-- A member that is a string; the empty string for any other. -/
def js (v : JVal) (key : Bytes) : Bytes := (v.findString key).getD []

/-- The data of a binary part, decoded into a buffer of the computed size. -/
def binaryData (data : Bytes) : Except Failure Bytes :=
  if data = [] then .ok [] else b64Decode data (b64DecodedSize data.length + 1)

def Part.fromJson (pj : JVal) : Except Failure Part :=
  match pj with
  | .object _ =>
      let kind := js pj (str "kind")
      if kind = str "text" then .ok (.text (js pj (str "content")))
      else if kind = str "reasoning" then .ok (.reasoning (js pj (str "content")))
      else if kind = str "image_url" then .ok (.imageUrl (js pj (str "url")))
      else if kind = str "tool_call" then
        .ok (.toolCall ⟨js pj (str "id"), js pj (str "name"), js pj (str "input_json"),
          (pj.findBool (str "finished")).getD false⟩)
      else if kind = str "tool_result" then
        .ok (.toolResult ⟨js pj (str "call_id"), js pj (str "content"),
          (pj.findBool (str "is_error")).getD false⟩)
      else if kind = str "finish" then
        .ok (.finish ((FinishReason.fromString (js pj (str "reason"))).getD .unknown))
      else if kind = str "binary" then
        match binaryData (js pj (str "data")) with
        | .error e => .error e
        | .ok data => .ok (.binary (js pj (str "mime")) data)
      else .error (jsonRefusal 6)
  | _ => .error (jsonRefusal 5)

/-- The parts of a body until one is refused. -/
def partsFromJson (read : List Part) : List JVal → ErrorCode × List Part
  | [] => (.success, read)
  | pj :: rest =>
      match Part.fromJson pj with
      | .error e => (e.ec, read)
      | .ok part => partsFromJson (read ++ [part]) rest

/-- The role of a message, which need not be there. -/
def roleFromJson (v : JVal) (before : Role) : Except Failure Role :=
  match v.find (str "role") with
  | none => .ok before
  | some (.string r) =>
      match Role.fromString r with
      | none => .error (jsonRefusal 3)
      | some role => .ok role
  | some _ => .error (jsonRefusal 2)

/-- Read a message into a target, and say whether it succeeded. -/
def Message.fromJson (v : JVal) (m : Message) : ErrorCode × Message :=
  match v with
  | .object _ =>
      match roleFromJson v m.role with
      | .error e => (e.ec, m)
      | .ok role =>
          let m := { m with
            role := role
            id := js v (str "id")
            sessionId := js v (str "session_id")
            model := js v (str "model")
            createdAt := ((v.findNumber (str "created_at")).map toUInt64).getD m.createdAt }
          match v.findArray (str "parts") with
          | none => ((jsonRefusal 4).ec, m)
          | some arr =>
              let (ec, parts) := partsFromJson [] arr
              (ec, { m with parts := parts })
  | _ => ((jsonRefusal 1).ec, m)

/-! ## The round trip -/

/-- The data of a binary part comes back through the computed buffer. -/
theorem binaryData_b64Encode (data : Bytes) : binaryData (b64Encode data) = .ok data := by
  unfold binaryData
  split
  · next none_ =>
    have empty : data = [] := by
      by_contra some_
      exact b64Encode_ne_nil some_ none_
    rw [empty]
  · exact b64Decode_b64Encode (Nat.le_succ_of_le (length_le_b64DecodedSize data))

/-- **The object of a part is read as the part.** -/
theorem Part.fromJson_toJson (p : Part) : Part.fromJson p.toJson = .ok p := by
  cases p with
  | text content => rfl
  | reasoning content => rfl
  | imageUrl url => rfl
  | binary mime data =>
      have form : Part.fromJson (Part.binary mime data).toJson =
          (binaryData (b64Encode data)).map (Part.binary mime) := by
        show (match binaryData (b64Encode data) with
          | .error e => Except.error e
          | .ok data => Except.ok (Part.binary mime data)) = _
        cases binaryData (b64Encode data) <;> rfl
      rw [form, binaryData_b64Encode]
      rfl
  | toolCall t => rfl
  | toolResult r => rfl
  | finish reason =>
      show Except.ok (Part.finish ((FinishReason.fromString reason.toBytes).getD .unknown)) = _
      rw [FinishReason.fromString_toBytes]
      rfl

theorem partsFromJson_toJson (parts : List Part) : ∀ read : List Part,
    partsFromJson read (parts.map Part.toJson) = (.success, read ++ parts) := by
  induction parts with
  | nil => exact fun read => congrArg _ (List.append_nil read).symm
  | cons p rest inductionHypothesis =>
      intro read
      rw [List.map_cons, partsFromJson, p.fromJson_toJson]
      dsimp only
      rw [inductionHypothesis, List.append_assoc]
      rfl

/-- An object with a known role and a body is read field by field. -/
theorem Message.fromJson_of_object {obj : List (Bytes × JVal)} {target : Message} {role : Role}
    {arr : List JVal} (known : roleFromJson (.object obj) target.role = .ok role)
    (body : (JVal.object obj).findArray (str "parts") = some arr) :
    Message.fromJson (.object obj) target =
      ((partsFromJson [] arr).1,
        { id := js (.object obj) (str "id")
          sessionId := js (.object obj) (str "session_id")
          role := role
          model := js (.object obj) (str "model")
          parts := (partsFromJson [] arr).2
          createdAt := (((JVal.object obj).findNumber (str "created_at")).map toUInt64).getD
            target.createdAt }) := by
  unfold Message.fromJson
  dsimp only
  rw [known]
  dsimp only
  rw [body]

/-- **The object of a message is read as the message**, whatever the target holds. -/
theorem Message.fromJson_toJson {m : Message} (exact_ : m.createdAt.toNat < 2 ^ 53)
    (target : Message) : Message.fromJson m.toJson target = (.success, m) := by
  have known : roleFromJson m.toJson target.role = .ok m.role := by
    have role : m.toJson.find (str "role") = some (.string m.role.toBytes) := rfl
    unfold roleFromJson
    rw [role]
    dsimp only
    rw [Role.fromString_toBytes]
  have body : m.toJson.findArray (str "parts") = some (m.parts.map Part.toJson) := rfl
  have createdAt : m.toJson.findNumber (str "created_at") = some (m.createdAt.toNat : Rat) :=
    congrArg some (roundBinary64_one exact_)
  refine (Message.fromJson_of_object known body).trans ?_
  rw [partsFromJson_toJson, List.nil_append]
  refine congrArg _ ?_
  have time : (((m.toJson).findNumber (str "created_at")).map toUInt64).getD target.createdAt =
      m.createdAt := by
    rw [createdAt]
    exact toUInt64_natCast _
  exact congrArg (fun t => ({ m with createdAt := t } : Message)) time

/-! ### The text -/

theorem Part.plainKeys_toJson (p : Part) : p.toJson.PlainKeys := by
  have names : ∀ key ∈ [str "kind", str "content", str "url", str "mime", str "data", str "id",
      str "name", str "input_json", str "finished", str "call_id", str "is_error",
      str "reason"], Plain key := by
    decide
  cases p <;> simp [Part.toJson, JVal.PlainKeys, plainMembers, names]

/-- No part has a number. -/
theorem Part.restored_toJson (p : Part) : p.toJson.Restored := by
  cases p <;> simp [Part.toJson, JVal.Restored, restoredMembers]

theorem Message.plainKeys_toJson (m : Message) : m.toJson.PlainKeys := by
  have names : ∀ key ∈ [str "id", str "session_id", str "role", str "model", str "created_at",
      str "parts"], Plain key := by
    decide
  have parts : plainElements (m.parts.map Part.toJson) :=
    plainElements_of_forall (List.forall_mem_map.mpr fun p _ => p.plainKeys_toJson)
  simp [Message.toJson, JVal.PlainKeys, plainMembers, names, parts]

/-- The only number of a message is its time. -/
theorem Message.restored_toJson {m : Message} (exact_ : m.createdAt.toNat < 2 ^ 53) :
    m.toJson.Restored := by
  have parts : restoredElements (m.parts.map Part.toJson) :=
    restoredElements_of_forall (List.forall_mem_map.mpr fun p _ => p.restored_toJson)
  simp [Message.toJson, JVal.Restored, restoredMembers, parts, roundBinary64_one exact_,
    rereadNumber_natCast exact_]

/-- **Round trip of messages.**  The text of a message whose time is below `2 ^ 53` is read as
the message, whatever was in the target of the reader. -/
theorem fromJson_parseJson_toJson {m : Message} (exact_ : m.createdAt.toNat < 2 ^ 53)
    (target : Message) : ∃ v, parseJson (toJson m.toJson) = .ok v ∧
      Message.fromJson v target = (.success, m) :=
  ⟨m.toJson, json_round_trip m.toJson m.plainKeys_toJson (Message.restored_toJson exact_),
    Message.fromJson_toJson exact_ target⟩

/-- A message with a part of every kind. -/
def everyPart : Message where
  id := str "m1"
  sessionId := [0x22, 0x00, 0xff]
  role := .assistant
  model := []
  parts := [.text [0x5c, 0x0a], .reasoning [], .imageUrl (str "u"), .binary (str "a/b") [0, 0xff],
    .binary [] [], .toolCall ⟨str "c", str "n", str "\x7b\x7d", true⟩,
    .toolResult ⟨str "c", [0x80], true⟩, .finish .permissionDenied]
  createdAt := 1700000000

theorem fromJson_parseJson_toJson_everyPart :
    ∃ v, parseJson (toJson everyPart.toJson) = .ok v ∧
      Message.fromJson v ⟨[], [], .user, [], [], 0⟩ = (.success, everyPart) :=
  fromJson_parseJson_toJson (by decide) _

end Opencodepp.Msg
