import Opencodepp.Core.Error
import Opencodepp.Library.Cursor
import Opencodepp.Msg.Message

/-!
# The binary message codec

A message is a version byte, its metadata and its parts.  Strings are interned: the first
occurrence stands in line, a repeated one is a reference into the dictionary of the strings
seen so far, which the encoder and the decoder build for themselves.

The encoder is a writer whose memory is the dictionary, the decoder a reader that stops at
the first malformed byte with its offset.  `decode_encode_message` is the round trip: it is put
together from the round trips of numbers, strings and parts, with the invariant that the two
dictionaries agree.
-/

set_option autoImplicit false

namespace Opencodepp.Msg

open Opencodepp.Core
open Opencodepp.Library

def kCodecVersion : UInt8 := 1

def kCodecDetailVersionMismatch : UInt32 := 0xFFFFFFFF

def kCodecMaxParts : Nat := 2 ^ 20

/-! ## Numbers of the enumerations -/

inductive PartKind
  | text
  | reasoning
  | imageUrl
  | binary
  | toolCall
  | toolResult
  | finish
  deriving Repr, DecidableEq

def Part.kind : Part → PartKind
  | .text _ => .text
  | .reasoning _ => .reasoning
  | .imageUrl _ => .imageUrl
  | .binary _ _ => .binary
  | .toolCall _ => .toolCall
  | .toolResult _ => .toolResult
  | .finish _ => .finish

def PartKind.byte : PartKind → UInt8
  | .text => 0
  | .reasoning => 1
  | .imageUrl => 2
  | .binary => 3
  | .toolCall => 4
  | .toolResult => 5
  | .finish => 6

def Role.byte : Role → UInt8
  | .user => 0
  | .assistant => 1
  | .system => 2
  | .tool => 3

def FinishReason.byte : FinishReason → UInt8
  | .endTurn => 0
  | .maxTokens => 1
  | .toolUse => 2
  | .canceled => 3
  | .error => 4
  | .permissionDenied => 5
  | .unknown => 6

/-- The member of an enumeration with a number; none past its last one. -/
def memberOf {α : Type} (byte : α → UInt8) (members : List α) (b : UInt8) : Option α :=
  members.find? (byte · = b)

def PartKind.ofByte : UInt8 → Option PartKind :=
  memberOf PartKind.byte [.text, .reasoning, .imageUrl, .binary, .toolCall, .toolResult, .finish]

def Role.ofByte : UInt8 → Option Role := memberOf Role.byte [.user, .assistant, .system, .tool]

def FinishReason.ofByte : UInt8 → Option FinishReason :=
  memberOf FinishReason.byte
    [.endTurn, .maxTokens, .toolUse, .canceled, .error, .permissionDenied, .unknown]

theorem PartKind.ofByte_byte (kind : PartKind) : ofByte kind.byte = some kind := by
  cases kind <;> rfl

theorem Role.ofByte_byte (role : Role) : ofByte role.byte = some role := by
  cases role <;> rfl

theorem FinishReason.ofByte_byte (reason : FinishReason) : ofByte reason.byte = some reason := by
  cases reason <;> rfl

/-! ## The encoder -/

/-- The bytes of a number, seven bits at a time; `room` is what is left of the ten bytes a
64-bit number can take, less the last. -/
def putVarintFrom : Nat → Nat → Bytes
  | 0, v => [UInt8.ofNat v]
  | room + 1, v =>
      if v < 0x80 then [UInt8.ofNat v]
      else (UInt8.ofNat v ||| 0x80) :: putVarintFrom room (v >>> 7)

def putVarint (v : UInt64) : Bytes := putVarintFrom 9 v.toNat

/-- The strings written so far with their indices. -/
abbrev StringInterner := List (Bytes × UInt32)

/-- A string: a reference when it was seen before, else in line. -/
def writeString (s : Bytes) : Writer StringInterner := fun dict =>
  match dict.lookup s with
  | some index => (0x01 :: putVarint index.toUInt64, dict)
  | none =>
      (0x00 :: (putVarint (UInt64.ofNat s.length) ++ s), dict ++ [(s, UInt32.ofNat dict.length)])

def writeU8 (b : UInt8) : Writer StringInterner := .bytes [b]

def writeVarint (v : UInt64) : Writer StringInterner := .bytes (putVarint v)

def writeFlag (flag : Bool) : Writer StringInterner := writeU8 (if flag then 1 else 0)

/-- The fields of a part. -/
def encodeFields : Part → List (Writer StringInterner)
  | .text content => [writeString content]
  | .reasoning content => [writeString content]
  | .imageUrl url => [writeString url]
  | .binary mime data => [writeString mime, writeVarint (UInt64.ofNat data.length), .bytes data]
  | .toolCall call =>
      [writeString call.id, writeString call.name, writeString call.inputJson,
        writeFlag call.finished]
  | .toolResult result =>
      [writeString result.callId, writeString result.content, writeFlag result.isError]
  | .finish reason => [writeU8 reason.byte]

def encodePart (p : Part) : Writer StringInterner := .all (writeU8 p.kind.byte :: encodeFields p)

def encodeParts (parts : List Part) : Writer StringInterner := .all (parts.map encodePart)

/-- Everything before the parts. -/
def encodeHeader (m : Message) : Writer StringInterner :=
  .all [writeU8 kCodecVersion, writeString m.id, writeString m.sessionId, writeU8 m.role.byte,
    writeString m.model, writeVarint m.createdAt, writeVarint (UInt64.ofNat m.parts.length)]

/-- The bytes of a message. -/
def encodeMessage (m : Message) : Bytes :=
  ((encodeHeader m).andThen (encodeParts m.parts) []).1

/-! ## The decoder -/

/-- A malformed byte at an offset. -/
def protoError (offset : Nat) : Failure := ⟨⟨.eProtoParse, UInt32.ofNat offset⟩, rfl⟩

/-- The decoder remembers the strings it has read in line. -/
abbrev Decoder (α : Type) := Reader (List Bytes) Failure α

/-- The bytes under the cursor. -/
def rawBytes (n : Nat) : Decoder Bytes := fun input c =>
  (.ok ((input.drop c.pos).take n),
    { c with pos := c.pos + n, touched := max c.touched (c.pos + n) })

/-- The byte under the cursor. -/
def nextByte : Decoder UInt8 := fun input c =>
  (.ok (input.getD c.pos 0), { c with pos := c.pos + 1, touched := max c.touched (c.pos + 1) })

def takeU8 : Decoder UInt8 := fun input c =>
  if c.pos > input.length ∨ 1 > input.length - c.pos then
    (.error (protoError (min c.pos input.length)), c)
  else nextByte input c

/-- A byte of a number. -/
def takeVarintByte : Decoder UInt8 := fun input c =>
  if c.pos ≥ input.length then (.error (protoError c.pos), c) else nextByte input c

/-- A number from its byte `i` on, when so many bytes may follow. -/
def takeVarintFrom : Nat → Nat → UInt64 → Decoder UInt64
  | 0, _, _ => .failAt fun pos => protoError (pos - 1)
  | left + 1, i, v => do
      let b ← takeVarintByte
      let v := v ||| ((b &&& 0x7F).toUInt64 <<< UInt64.ofNat (7 * i))
      if b &&& 0x80 = 0 then pure v else takeVarintFrom left (i + 1) v

def takeVarint : Decoder UInt64 := takeVarintFrom 10 0 0

/-- A string from the dictionary. -/
def takeReference (index : UInt64) : Decoder Bytes := fun _ c =>
  match c.memo[index.toNat]? with
  | none => (.error (protoError c.pos), c)
  | some s => (.ok s, c)

/-- A string that stands in line, which is added to the dictionary. -/
def takeInline (len : UInt64) : Decoder Bytes := fun input c =>
  if c.pos > input.length ∨ len.toNat > input.length - c.pos then (.error (protoError c.pos), c)
  else
    match rawBytes len.toNat input c with
    | (.ok s, c) => (.ok s, { c with memo := c.memo ++ [s] })
    | (.error e, c) => (.error e, c)

def takeString : Decoder Bytes := do
  let flag ← takeU8
  if flag = 0x01 then do
    let index ← takeVarint
    takeReference index
  else if flag ≠ 0x00 then .failAt fun pos => protoError (pos - 1)
  else do
    let len ← takeVarint
    takeInline len

/-- What is left of the input. -/
def remaining (size pos : Nat) : Nat := if pos > size then 0 else size - pos

/-- The data of a binary part. -/
def takeData (len : UInt64) : Decoder Bytes := fun input c =>
  if remaining input.length c.pos < len.toNat then (.error (protoError c.pos), c)
  else rawBytes len.toNat input c

/-- A byte that must be the number of a member. -/
def takeMember {α : Type} (ofByte : UInt8 → Option α) : Decoder α := do
  let b ← takeU8
  match ofByte b with
  | none => .failAt protoError
  | some a => pure a

def takeFlag : Decoder Bool := do
  let b ← takeU8
  if b > 1 then .failAt protoError else pure (b ≠ 0)

/-- The fields of a part of this kind. -/
def decodeFields : PartKind → Decoder Part
  | .text => do
      let content ← takeString
      pure (.text content)
  | .reasoning => do
      let content ← takeString
      pure (.reasoning content)
  | .imageUrl => do
      let url ← takeString
      pure (.imageUrl url)
  | .binary => do
      let mime ← takeString
      let len ← takeVarint
      let data ← takeData len
      pure (.binary mime data)
  | .toolCall => do
      let id ← takeString
      let name ← takeString
      let inputJson ← takeString
      let finished ← takeFlag
      pure (.toolCall ⟨id, name, inputJson, finished⟩)
  | .toolResult => do
      let callId ← takeString
      let content ← takeString
      let isError ← takeFlag
      pure (.toolResult ⟨callId, content, isError⟩)
  | .finish => do
      let reason ← takeMember FinishReason.ofByte
      pure (.finish reason)

def decodePart : Decoder Part := do
  let kind ← takeMember PartKind.ofByte
  decodeFields kind

def decodeParts : Nat → Decoder (List Part)
  | 0 => pure []
  | count + 1 => do
      let p ← decodePart
      let rest ← decodeParts count
      pure (p :: rest)

/-- Everything before the parts: a message without them, and their number. -/
def decodeHeader : Decoder (Message × UInt64) := do
  let version ← takeU8
  if version ≠ kCodecVersion then
    .failAt fun _ => ⟨⟨.eProtoParse, kCodecDetailVersionMismatch⟩, rfl⟩
  else do
    let id ← takeString
    let sessionId ← takeString
    let role ← takeMember Role.ofByte
    let model ← takeString
    let createdAt ← takeVarint
    let count ← takeVarint
    pure (⟨id, sessionId, role, model, [], createdAt⟩, count)

def decode : Decoder Message := do
  let header ← decodeHeader
  if header.2.toNat > kCodecMaxParts then .failAt protoError
  else do
    let parts ← decodeParts header.2.toNat
    pure { header.1 with parts }

/-- A run of the decoder from the start of an input. -/
def decodeRun (s : Bytes) : Except Failure Message × Cursor (List Bytes) := decode s ⟨0, 0, []⟩

/-- Decode a message into the caller's one, which is only written when all went well. -/
def decodeMessage (s : Bytes) (out : Message) : ErrorCode × Message :=
  match (decodeRun s).1 with
  | .ok m => (.success, m)
  | .error e => (e.ec, out)

/-! ## Numbers -/

section Numbers

variable {μ : Type} {R : μ → List Bytes → Prop}

theorem nextByte_run (before after : Bytes) (b : UInt8) (touched : Nat) (memo : List Bytes) :
    nextByte (before ++ b :: after) ⟨before.length, touched, memo⟩ =
      (.ok b, ⟨before.length + 1, max touched (before.length + 1), memo⟩) := by
  unfold nextByte
  simp

theorem recovers_takeU8 (b : UInt8) : Reader.Recovers R R (.bytes [b]) takeU8 b := by
  intro m n related before after touched
  refine ⟨n, max touched (before.length + 1), related, ?_⟩
  have inside : ¬(before.length > (before ++ b :: after).length ∨
      1 > (before ++ b :: after).length - before.length) := by
    simp
  show takeU8 (before ++ b :: after) _ = _
  unfold takeU8
  rw [if_neg inside, nextByte_run]
  rfl

theorem recovers_takeVarintByte (b : UInt8) :
    Reader.Recovers R R (.bytes [b]) takeVarintByte b := by
  intro m n related before after touched
  refine ⟨n, max touched (before.length + 1), related, ?_⟩
  have inside : ¬before.length ≥ (before ++ b :: after).length := by simp
  show takeVarintByte (before ++ b :: after) _ = _
  unfold takeVarintByte
  rw [if_neg inside, nextByte_run]
  rfl

/-- The bits a byte of a number carries. -/
theorem payload_of_last {v : Nat} (small : v < 0x80) :
    (UInt8.ofNat v &&& 0x7F).toNat = v ∧ UInt8.ofNat v &&& 0x80 = 0 := by
  have all : ∀ k < 128, (UInt8.ofNat k &&& 0x7F).toNat = k ∧ UInt8.ofNat k &&& 0x80 = 0 := by
    decide +kernel
  exact all v small

theorem payload_of_continued (v : Nat) :
    ((UInt8.ofNat v ||| 0x80) &&& 0x7F).toNat = v % 0x80 ∧
      (UInt8.ofNat v ||| 0x80) &&& 0x80 ≠ 0 := by
  have all : ∀ k < 256, ((UInt8.ofNat k ||| 0x80) &&& 0x7F).toNat = k % 0x80 ∧
      (UInt8.ofNat k ||| 0x80) &&& 0x80 ≠ 0 := by
    decide +kernel
  have byte : UInt8.ofNat v = UInt8.ofNat (v % 256) := by
    apply UInt8.toNat_inj.mp
    simp
  have low := all (v % 256) (Nat.mod_lt _ (by decide))
  rw [← byte] at low
  refine ⟨low.1.trans ?_, low.2⟩
  omega

/-- One more group of seven bits. -/
theorem varint_step {v : UInt64} {b : UInt8} {V i : Nat} (bound : V < 2 ^ 64) (place : i ≤ 9)
    (read : v.toNat = V % 2 ^ (7 * i)) (payload : (b &&& 0x7F).toNat = V / 2 ^ (7 * i) % 128) :
    (v ||| ((b &&& 0x7F).toUInt64 <<< UInt64.ofNat (7 * i))).toNat = V % 2 ^ (7 * (i + 1)) := by
  have shift : (UInt64.ofNat (7 * i)).toNat % 64 = 7 * i := by
    rw [UInt64.toNat_ofNat']
    omega
  have split : V % 2 ^ (7 * (i + 1)) =
      V % 2 ^ (7 * i) + 2 ^ (7 * i) * (V / 2 ^ (7 * i) % 128) := by
    rw [show 7 * (i + 1) = 7 * i + 7 by omega, Nat.pow_add, Nat.mod_mul]
  have small : V / 2 ^ (7 * i) % 128 * 2 ^ (7 * i) < 2 ^ 64 := by
    have below : V % 2 ^ (7 * (i + 1)) ≤ V := Nat.mod_le _ _
    rw [split, Nat.mul_comm (2 ^ (7 * i))] at below
    omega
  rw [UInt64.toNat_or, UInt64.toNat_shiftLeft, UInt8.toNat_toUInt64, payload, read, shift,
    Nat.shiftLeft_eq, Nat.mod_eq_of_lt small, split, Nat.or_comm,
    Nat.mul_comm (V / 2 ^ (7 * i) % 128), ← Nat.two_pow_add_eq_or_of_lt
      (Nat.mod_lt _ (Nat.two_pow_pos _)), Nat.add_comm]

/-- The last byte of a number. -/
theorem recovers_last {V i : Nat} {v : UInt64} (bound : V < 2 ^ 64) (place : i ≤ 9)
    (read : v.toNat = V % 2 ^ (7 * i)) (small : V / 2 ^ (7 * i) < 0x80) (room : Nat) :
    Reader.Recovers R R (.bytes [UInt8.ofNat (V / 2 ^ (7 * i))])
      (takeVarintFrom (room + 1) i v) (UInt64.ofNat V) := by
  obtain ⟨payload, ends⟩ := payload_of_last small
  have whole : v ||| ((UInt8.ofNat (V / 2 ^ (7 * i)) &&& 0x7F).toUInt64 <<<
      UInt64.ofNat (7 * i)) = UInt64.ofNat V := by
    apply UInt64.toNat_inj.mp
    rw [varint_step bound place read (payload.trans (Nat.mod_eq_of_lt small).symm),
      UInt64.toNat_ofNat', Nat.mod_eq_of_lt bound]
    refine Nat.mod_eq_of_lt ?_
    rw [show 7 * (i + 1) = 7 * i + 7 by omega, Nat.pow_add, Nat.mul_comm]
    exact (Nat.div_lt_iff_lt_mul (Nat.two_pow_pos _)).mp small
  unfold takeVarintFrom
  refine Reader.Recovers.cons (recovers_takeVarintByte _) ?_
  dsimp only
  rw [if_pos ends, whole]
  exact Reader.Recovers.pure _

/-- A number is read back from its byte `i` on. -/
theorem recovers_takeVarintFrom {V : Nat} (bound : V < 2 ^ 64) : ∀ (room i : Nat) (v : UInt64),
    room + i = 9 → v.toNat = V % 2 ^ (7 * i) →
      Reader.Recovers R R (.bytes (putVarintFrom room (V / 2 ^ (7 * i))))
        (takeVarintFrom (room + 1) i v) (UInt64.ofNat V) := by
  intro room
  induction room with
  | zero =>
      intro i v place read
      have small : V / 2 ^ (7 * i) < 0x80 := by
        obtain rfl : i = 9 := by omega
        omega
      exact recovers_last bound (by omega) read small 0
  | succ room inductionHypothesis =>
      intro i v place read
      unfold putVarintFrom
      split
      · next small => exact recovers_last bound (by omega) read small (room + 1)
      · obtain ⟨payload, continues⟩ := payload_of_continued (V / 2 ^ (7 * i))
        have shifted : (V / 2 ^ (7 * i)) >>> 7 = V / 2 ^ (7 * (i + 1)) := by
          rw [Nat.shiftRight_eq_div_pow, Nat.div_div_eq_div_mul, ← Nat.pow_add]
          rfl
        rw [shifted]
        unfold takeVarintFrom
        refine Reader.Recovers.cons (recovers_takeVarintByte _) ?_
        dsimp only
        rw [if_neg continues]
        exact inductionHypothesis (i + 1) _ (by omega) (varint_step bound (by omega) read payload)

theorem recovers_takeVarint (v : UInt64) :
    Reader.Recovers R R (.bytes (putVarint v)) takeVarint v := by
  have read := recovers_takeVarintFrom (R := R) v.toNat_lt 9 0 0 rfl (by simp [Nat.mod_one])
  rw [UInt64.ofNat_toNat, Nat.mul_zero, Nat.pow_zero, Nat.div_one] at read
  exact read

end Numbers

/-! ## Strings -/

/-- The dictionaries of the encoder and the decoder hold the same strings in the same order,
and not more than so many. -/
structure Agree (bound : Nat) (dict : StringInterner) (seen : List Bytes) : Prop where
  same : dict = seen.zipIdx.map fun entry => (entry.1, UInt32.ofNat entry.2)
  few : seen.length ≤ bound

theorem Agree.mono {bound larger : Nat} {dict : StringInterner} {seen : List Bytes}
    (agree : Agree bound dict seen) (le : bound ≤ larger) : Agree larger dict seen :=
  ⟨agree.same, Nat.le_trans agree.few le⟩

/-- A reference leads to its string. -/
theorem Agree.reference {bound : Nat} {dict : StringInterner} {seen : List Bytes} {s : Bytes}
    {index : UInt32} (agree : Agree bound dict seen) (small : bound ≤ 2 ^ 32)
    (found : dict.lookup s = some index) : seen[index.toUInt64.toNat]? = some s := by
  obtain ⟨earlier, later, split, -⟩ := List.lookup_eq_some_iff.mp found
  have member : (s, index) ∈ dict := by
    rw [split]
    exact List.mem_append_right _ (List.mem_cons_self ..)
  rw [agree.same] at member
  obtain ⟨⟨s', i⟩, entry, same⟩ := List.mem_map.mp member
  obtain ⟨rfl, rfl⟩ := Prod.mk.inj same
  have at_ : seen[i]? = some s' := List.mem_zipIdx_iff_getElem?.mp entry
  have inside : i < seen.length := (List.getElem?_eq_some_iff.mp at_).1
  have few := agree.few
  have exact_ : (UInt32.ofNat i).toUInt64.toNat = i := by
    rw [UInt32.toNat_toUInt64, UInt32.toNat_ofNat']
    exact Nat.mod_eq_of_lt (by omega)
  rw [exact_]
  exact at_

/-- A new string is added to both. -/
theorem Agree.inline {bound : Nat} {dict : StringInterner} {seen : List Bytes} (s : Bytes)
    (agree : Agree bound dict seen) :
    Agree (bound + 1) (dict ++ [(s, UInt32.ofNat dict.length)]) (seen ++ [s]) where
  same := by
    have length : dict.length = seen.length := by
      rw [agree.same]
      simp
    rw [length, List.zipIdx_append, List.map_append, ← agree.same]
    simp
  few := by
    have few := agree.few
    simp
    omega

theorem recovers_takeReference {μ : Type} {R : μ → List Bytes → Prop} {index : UInt64} {s : Bytes}
    (found : ∀ m seen, R m seen → seen[index.toNat]? = some s) :
    Reader.Recovers R R .nothing (takeReference index) s := by
  intro m seen related before after touched
  refine ⟨seen, touched, related, ?_⟩
  unfold takeReference
  rw [found m seen related]
  rfl

/-- Bytes of a known length are read back. -/
theorem rawBytes_run (before data after : Bytes) (touched : Nat) (memo : List Bytes) :
    rawBytes data.length (before ++ (data ++ after)) ⟨before.length, touched, memo⟩ =
      (.ok data, ⟨before.length + data.length, max touched (before.length + data.length), memo⟩) := by
  unfold rawBytes
  simp

theorem toNat_size {data : Bytes} (sized : data.length < 2 ^ 64) :
    (UInt64.ofNat data.length).toNat = data.length := by
  rw [UInt64.toNat_ofNat']
  exact Nat.mod_eq_of_lt sized

theorem recovers_takeInline {μ : Type} {R R' : μ → List Bytes → Prop} {s : Bytes}
    (sized : s.length < 2 ^ 64) (added : ∀ m seen, R m seen → R' m (seen ++ [s])) :
    Reader.Recovers R R' (.bytes s) (takeInline (UInt64.ofNat s.length)) s := by
  intro m seen related before after touched
  refine ⟨seen ++ [s], max touched (before.length + s.length), added m seen related, ?_⟩
  have inside : ¬(before.length > (before ++ (s ++ after)).length ∨
      s.length > (before ++ (s ++ after)).length - before.length) := by
    simp
  show takeInline (UInt64.ofNat s.length) (before ++ (s ++ after)) _ = _
  unfold takeInline
  rw [toNat_size sized, if_neg inside, rawBytes_run]
  rfl

theorem recovers_takeData {μ : Type} {R : μ → List Bytes → Prop} {data : Bytes}
    (sized : data.length < 2 ^ 64) :
    Reader.Recovers R R (.bytes data) (takeData (UInt64.ofNat data.length)) data := by
  intro m seen related before after touched
  refine ⟨seen, max touched (before.length + data.length), related, ?_⟩
  have inside : ¬remaining (before ++ (data ++ after)).length before.length < data.length := by
    unfold remaining
    rw [if_neg (by simp)]
    simp
  show takeData (UInt64.ofNat data.length) (before ++ (data ++ after)) _ = _
  unfold takeData
  rw [toNat_size sized, if_neg inside, rawBytes_run]
  rfl

/-- **A string is read back**, and the dictionaries still agree. -/
theorem recovers_takeString {bound : Nat} (small : bound ≤ 2 ^ 32) {s : Bytes}
    (sized : s.length < 2 ^ 64) :
    Reader.Recovers (Agree bound) (Agree (bound + 1)) (writeString s) takeString s := by
  refine Reader.Recovers.of_fixed fun dict seen agree => ?_
  unfold writeString takeString
  cases found : dict.lookup s with
  | some index =>
      refine Reader.Recovers.cons (recovers_takeU8 0x01) ?_
      rw [if_pos rfl]
      refine Reader.Recovers.mono (Reader.Recovers.bind_nothing (recovers_takeVarint index.toUInt64)
        (recovers_takeReference ?_)) ?_
      · rintro m n ⟨rfl, rfl⟩
        exact agree.reference small found
      · rintro m n ⟨rfl, rfl⟩
        exact agree.mono (Nat.le_succ _)
  | none =>
      refine Reader.Recovers.cons (recovers_takeU8 0x00) ?_
      rw [if_neg (by decide), if_neg (by decide)]
      refine Reader.Recovers.bind (recovers_takeVarint (UInt64.ofNat s.length))
        (recovers_takeInline sized ?_)
      rintro m n ⟨rfl, rfl⟩
      exact agree.inline s

/-! ## Parts -/

/-- A size that a program can hold in memory. -/
def Sized (data : Bytes) : Prop := data.length < 2 ^ 64

def Part.Sized : Part → Prop
  | .text content => Msg.Sized content
  | .reasoning content => Msg.Sized content
  | .imageUrl url => Msg.Sized url
  | .binary mime data => Msg.Sized mime ∧ Msg.Sized data
  | .toolCall call => Msg.Sized call.id ∧ Msg.Sized call.name ∧ Msg.Sized call.inputJson
  | .toolResult result => Msg.Sized result.callId ∧ Msg.Sized result.content
  | .finish _ => True

section Fields

variable {μ : Type} {R : μ → List Bytes → Prop}

theorem recovers_takeMember {α : Type} {ofByte : UInt8 → Option α} {b : UInt8} {a : α}
    (member : ofByte b = some a) : Reader.Recovers R R (.bytes [b]) (takeMember ofByte) a := by
  refine Reader.Recovers.bind_nothing (recovers_takeU8 b) ?_
  rw [member]
  exact Reader.Recovers.pure a

theorem recovers_takeFlag (flag : Bool) :
    Reader.Recovers R R (.bytes [if flag then 1 else 0]) takeFlag flag := by
  refine Reader.Recovers.bind_nothing (recovers_takeU8 _) ?_
  cases flag <;> exact Reader.Recovers.pure _

end Fields

/-- The fields of a part are read back; a part has at most three strings. -/
theorem recovers_decodeFields {bound : Nat} (small : bound + 3 ≤ 2 ^ 32) (p : Part)
    (sized : p.Sized) :
    Reader.Recovers (Agree bound) (Agree (bound + 3)) (.all (encodeFields p))
      (decodeFields p.kind) p := by
  have grows (k : Nat) (le : k ≤ 3) (p : Part) : Reader.Recovers (Agree (bound + k))
      (Agree (bound + 3)) .nothing (pure p : Decoder Part) p :=
    (Reader.Recovers.pure p).mono fun _ _ agree => agree.mono (Nat.add_le_add_left le bound)
  cases p with
  | text content =>
      exact (recovers_takeString (by omega) sized).bind (grows 1 (by decide) _)
  | reasoning content =>
      exact (recovers_takeString (by omega) sized).bind (grows 1 (by decide) _)
  | imageUrl url =>
      exact (recovers_takeString (by omega) sized).bind (grows 1 (by decide) _)
  | binary mime data =>
      exact (recovers_takeString (by omega) sized.1).bind ((recovers_takeVarint _).bind
        ((recovers_takeData sized.2).bind (grows 1 (by decide) _)))
  | toolCall call =>
      obtain ⟨id, name, inputJson⟩ := sized
      exact (recovers_takeString (by omega) id).bind ((recovers_takeString (by omega) name).bind
        ((recovers_takeString (by omega) inputJson).bind
          ((recovers_takeFlag call.finished).bind (grows 3 (by decide) _))))
  | toolResult result =>
      exact (recovers_takeString (by omega) sized.1).bind ((recovers_takeString (by omega)
        sized.2).bind ((recovers_takeFlag result.isError).bind (grows 2 (by decide) _)))
  | finish reason =>
      exact (recovers_takeMember (FinishReason.ofByte_byte reason)).bind (grows 0 (by decide) _)

theorem recovers_decodePart {bound : Nat} (small : bound + 3 ≤ 2 ^ 32) {p : Part}
    (sized : p.Sized) :
    Reader.Recovers (Agree bound) (Agree (bound + 3)) (encodePart p) decodePart p :=
  (recovers_takeMember (PartKind.ofByte_byte p.kind)).bind (recovers_decodeFields small p sized)

/-- **All parts are read back.** -/
theorem recovers_decodeParts (parts : List Part) : ∀ bound : Nat,
    bound + 3 * parts.length ≤ 2 ^ 32 → (∀ p ∈ parts, p.Sized) →
      Reader.Recovers (Agree bound) (Agree (bound + 3 * parts.length)) (encodeParts parts)
        (decodeParts parts.length) parts := by
  induction parts with
  | nil =>
      intro bound _ _
      exact Reader.Recovers.pure []
  | cons p rest inductionHypothesis =>
      intro bound small sized
      obtain ⟨first, others⟩ := List.forall_mem_cons.mp sized
      rw [List.length_cons] at small ⊢
      have later := inductionHypothesis (bound + 3) (by omega) others
      rw [show bound + 3 + 3 * rest.length = bound + 3 * (rest.length + 1) by omega] at later
      exact (recovers_decodePart (by omega) first).bind
        (later.bind_nothing (Reader.Recovers.pure _))

/-! ## The round trip -/

/-- Every string and every list of the message has a size that a program can hold. -/
structure Message.Sized (m : Message) : Prop where
  id : Msg.Sized m.id
  sessionId : Msg.Sized m.sessionId
  model : Msg.Sized m.model
  parts : ∀ p ∈ m.parts, p.Sized
  count : m.parts.length < 2 ^ 64

theorem recovers_decodeHeader {m : Message} (sized : m.Sized) :
    Reader.Recovers (Agree 0) (Agree 3) (encodeHeader m) decodeHeader
      ({ m with parts := [] }, UInt64.ofNat m.parts.length) := by
  unfold encodeHeader decodeHeader
  refine (recovers_takeU8 kCodecVersion).bind ?_
  rw [if_neg (by simp)]
  exact (recovers_takeString (by omega) sized.id).bind
    ((recovers_takeString (by omega) sized.sessionId).bind
      ((recovers_takeMember (Role.ofByte_byte m.role)).bind
        ((recovers_takeString (by omega) sized.model).bind
          ((recovers_takeVarint m.createdAt).bind
            ((recovers_takeVarint (UInt64.ofNat m.parts.length)).bind
              (Reader.Recovers.pure _))))))

theorem toNat_count {m : Message} (sized : m.Sized) :
    (UInt64.ofNat m.parts.length).toNat = m.parts.length := by
  rw [UInt64.toNat_ofNat']
  exact Nat.mod_eq_of_lt sized.count

/-- A message within the limit of parts is read back. -/
theorem recovers_decode {m : Message} (sized : m.Sized) (few : m.parts.length ≤ kCodecMaxParts) :
    Reader.Recovers (Agree 0) (Agree (3 + 3 * m.parts.length))
      ((encodeHeader m).andThen (encodeParts m.parts)) decode m := by
  unfold kCodecMaxParts at few
  refine (recovers_decodeHeader sized).bind ?_
  dsimp only
  rw [toNat_count sized, if_neg (by unfold kCodecMaxParts; omega)]
  exact (recovers_decodeParts m.parts 3 (by omega) sized.parts).bind_nothing
    (Reader.Recovers.pure _)

theorem decodeRun_encodeMessage {m : Message} (sized : m.Sized)
    (few : m.parts.length ≤ kCodecMaxParts) :
    ∃ seen touched, decodeRun (encodeMessage m) =
      (.ok m, ⟨(encodeMessage m).length, touched, seen⟩) := by
  have empty : Agree 0 [] [] := ⟨rfl, Nat.le_refl _⟩
  unfold decodeRun encodeMessage
  exact (recovers_decode sized few).whole empty 0

/-- **The round trip.**  A message with at most `2 ^ 20` parts is decoded from its own bytes, all
of them are consumed, and encoding what was decoded gives them again. -/
theorem decode_encode_message (m : Message) (out : Message) (sized : m.Sized)
    (few : m.parts.length ≤ kCodecMaxParts) :
    decodeMessage (encodeMessage m) out = (.success, m) ∧
      (decodeRun (encodeMessage m)).2.pos = (encodeMessage m).length ∧
      encodeMessage (decodeMessage (encodeMessage m) out).2 = encodeMessage m := by
  obtain ⟨seen, touched, run⟩ := decodeRun_encodeMessage sized few
  have decoded : decodeMessage (encodeMessage m) out = (.success, m) := by
    unfold decodeMessage
    rw [run]
  refine ⟨decoded, ?_, ?_⟩
  · rw [run]
  · rw [decoded]

/-- A message with a repeated string. -/
def noted : Message :=
  ⟨str "m1", str "s1", .user, [], [.toolResult ⟨str "m1", str "done", true⟩, .finish .endTurn], 300⟩

theorem sized_noted : noted.Sized where
  id := by unfold Sized; decide
  sessionId := by unfold Sized; decide
  model := by unfold Sized; decide
  parts := by
    simp only [noted, List.forall_mem_cons, Part.Sized, Sized]
    exact ⟨by decide, trivial, fun _ member => absurd member List.not_mem_nil⟩
  count := by decide

theorem decode_encode_noted :
    noted.parts.length ≤ kCodecMaxParts ∧
      decodeMessage (encodeMessage noted) noted = (.success, noted) :=
  ⟨by decide, (decode_encode_message noted noted sized_noted (by decide)).1⟩

end Opencodepp.Msg
