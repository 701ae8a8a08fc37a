import Opencodepp.Library.Layout
import Opencodepp.Msg.Codec

/-!
# The wire layout of a message

The layout of version one, as its header describes it and without a decoder: strings stand in
line or refer to an earlier one, lengths and counts are LEB128 numbers of at most ten bytes, and
there are at most `kCodecMaxParts` parts.  What a number may denote is a parameter: `Below64`
is the layout proper, in `AnyValue` a number of ten bytes may denote more than 64 bits hold, of
which the low 64 count.

`reads_decode` says that the decoder reads the lenient layout, `written_encodeMessage` that the
encoder writes the strict one.
-/

set_option autoImplicit false

namespace Opencodepp.Msg

open Opencodepp.Core
open Opencodepp.Library

/-! ## Numbers -/

/-- Every byte but the last has its high bit set. -/
def IsLeb : Bytes → Prop
  | [] => False
  | b :: rest => if b &&& 0x80 = 0 then rest = [] else IsLeb rest

/-- Groups of seven bits, the lowest first. -/
def lebValue : Bytes → Nat
  | [] => 0
  | b :: rest => (b &&& 0x7F).toNat + lebValue rest * 2 ^ 7

/-- The number is one of 64 bits. -/
def Below64 (value : Nat) : Prop := value < 2 ^ 64

def AnyValue (_ : Nat) : Prop := True

/-! ## The layout -/

section Forms

variable (fits : Nat → Prop)

def varintForm : Layout (List Bytes) UInt64 := fun seen w v seen' =>
  IsLeb w ∧ w.length ≤ 10 ∧ fits (lebValue w) ∧ v = UInt64.ofNat (lebValue w) ∧ seen' = seen

/-- An earlier string. -/
def referenceForm (index : UInt64) : Layout (List Bytes) Bytes := fun seen w s seen' =>
  w = [] ∧ seen[index.toNat]? = some s ∧ seen' = seen

/-- A string in line, to which later ones may refer. -/
def inlineForm (len : UInt64) : Layout (List Bytes) Bytes := fun seen w s seen' =>
  w = s ∧ s.length = len.toNat ∧ seen' = seen ++ [s]

def stringForm : Layout (List Bytes) Bytes := do
  let flag ← Layout.byte
  if flag = 0x01 then do
    let index ← varintForm fits
    referenceForm index
  else if flag ≠ 0x00 then Layout.never
  else do
    let len ← varintForm fits
    inlineForm len

/-- The number of a member of an enumeration. -/
def memberForm {α : Type} (ofByte : UInt8 → Option α) : Layout (List Bytes) α := do
  let b ← Layout.byte
  match ofByte b with
  | none => Layout.never
  | some a => pure a

def flagForm : Layout (List Bytes) Bool := do
  let b ← Layout.byte
  if b > 1 then Layout.never else pure (b ≠ 0)

/-- The fields of a part of each kind. -/
def fieldsForm : PartKind → Layout (List Bytes) Part
  | .text => do
      let content ← stringForm fits
      pure (.text content)
  | .reasoning => do
      let content ← stringForm fits
      pure (.reasoning content)
  | .imageUrl => do
      let url ← stringForm fits
      pure (.imageUrl url)
  | .binary => do
      let mime ← stringForm fits
      let len ← varintForm fits
      let data ← Layout.run len.toNat
      pure (.binary mime data)
  | .toolCall => do
      let id ← stringForm fits
      let name ← stringForm fits
      let inputJson ← stringForm fits
      let finished ← flagForm
      pure (.toolCall ⟨id, name, inputJson, finished⟩)
  | .toolResult => do
      let callId ← stringForm fits
      let content ← stringForm fits
      let isError ← flagForm
      pure (.toolResult ⟨callId, content, isError⟩)
  | .finish => do
      let reason ← memberForm FinishReason.ofByte
      pure (.finish reason)

def partForm : Layout (List Bytes) Part := do
  let kind ← memberForm PartKind.ofByte
  fieldsForm fits kind

def partsForm : Nat → Layout (List Bytes) (List Part)
  | 0 => pure []
  | count + 1 => do
      let p ← partForm fits
      let rest ← partsForm count
      pure (p :: rest)

def headerForm : Layout (List Bytes) (Message × UInt64) := do
  let version ← Layout.byte
  if version ≠ kCodecVersion then Layout.never
  else do
    let id ← stringForm fits
    let sessionId ← stringForm fits
    let role ← memberForm Role.ofByte
    let model ← stringForm fits
    let createdAt ← varintForm fits
    let count ← varintForm fits
    pure (⟨id, sessionId, role, model, [], createdAt⟩, count)

def messageForm : Layout (List Bytes) Message := do
  let header ← headerForm fits
  if header.2.toNat > kCodecMaxParts then Layout.never
  else do
    let parts ← partsForm fits header.2.toNat
    pure { header.1 with parts }

/-- The bytes are the encoding of the message. -/
def Wire (w : Bytes) (m : Message) : Prop := ∃ seen, messageForm fits [] w m seen

end Forms

/-! ## The decoder reads numbers -/

/-- A group of bits is put above those that are there; what does not fit is lost. -/
theorem toNat_or_shift {v : UInt64} (b : UInt8) {i : Nat} (place : i ≤ 9)
    (low : v.toNat < 2 ^ (7 * i)) :
    (v ||| ((b &&& 0x7F).toUInt64 <<< UInt64.ofNat (7 * i))).toNat =
      (v.toNat + (b &&& 0x7F).toNat * 2 ^ (7 * i)) % 2 ^ 64 := by
  have shift : (UInt64.ofNat (7 * i)).toNat % 64 = 7 * i := by
    rw [UInt64.toNat_ofNat']
    omega
  generalize payload : (b &&& 0x7F).toNat = p
  have width : 2 ^ 64 = 2 ^ (64 - 7 * i) * 2 ^ (7 * i) := by
    rw [← Nat.pow_add]
    congr 1
    omega
  have kept : p * 2 ^ (7 * i) % 2 ^ 64 = 2 ^ (7 * i) * (p % 2 ^ (64 - 7 * i)) := by
    rw [width, Nat.mul_mod_mul_right, Nat.mul_comm]
  have room : 2 ^ (7 * i) * (p % 2 ^ (64 - 7 * i)) + v.toNat < 2 ^ 64 := by
    have below := Nat.mod_lt p (Nat.two_pow_pos (64 - 7 * i))
    calc 2 ^ (7 * i) * (p % 2 ^ (64 - 7 * i)) + v.toNat
        < 2 ^ (7 * i) * (p % 2 ^ (64 - 7 * i)) + 2 ^ (7 * i) := Nat.add_lt_add_left low _
      _ = 2 ^ (7 * i) * (p % 2 ^ (64 - 7 * i) + 1) := by rw [Nat.mul_add, Nat.mul_one]
      _ ≤ 2 ^ (7 * i) * 2 ^ (64 - 7 * i) := Nat.mul_le_mul_left _ below
      _ = 2 ^ 64 := by rw [Nat.mul_comm, ← width]
  rw [UInt64.toNat_or, UInt64.toNat_shiftLeft, UInt8.toNat_toUInt64, payload, shift,
    Nat.shiftLeft_eq, kept, Nat.or_comm, ← Nat.two_pow_add_eq_or_of_lt low, Nat.add_mod, kept,
    Nat.mod_eq_of_lt v.toNat_lt, Nat.add_comm v.toNat, Nat.mod_eq_of_lt room]

/-- What follows of a number from its byte `i` on, when `v` was read before. -/
def varintRest (left i : Nat) (v : UInt64) : Layout (List Bytes) UInt64 := fun seen w r seen' =>
  IsLeb w ∧ w.length ≤ left ∧ r.toNat = (v.toNat + lebValue w * 2 ^ (7 * i)) % 2 ^ 64 ∧
    seen' = seen

theorem lebValue_append_pow (p l i : Nat) :
    (p + l * 2 ^ 7) * 2 ^ (7 * i) = p * 2 ^ (7 * i) + l * 2 ^ (7 * (i + 1)) := by
  rw [Nat.add_mul, Nat.mul_assoc, ← Nat.pow_add, show 7 + 7 * i = 7 * (i + 1) by omega]

/-- The rest of a number is one byte, or a byte and a rest. -/
theorem varintRest_succ {left i : Nat} {v : UInt64} (place : i ≤ 9) (low : v.toNat < 2 ^ (7 * i))
    (seen : List Bytes) (w : Bytes) (r : UInt64) (seen' : List Bytes) :
    varintRest (left + 1) i v seen w r seen' ↔
      (Layout.byte >>= fun b =>
        let v := v ||| ((b &&& 0x7F).toUInt64 <<< UInt64.ofNat (7 * i))
        if b &&& 0x80 = 0 then pure v else varintRest left (i + 1) v :
          Layout (List Bytes) UInt64) seen w r seen' := by
  have value (b : UInt8) := toNat_or_shift b place low
  constructor
  · rintro ⟨leb, short, read, rfl⟩
    cases w with
    | nil => exact leb.elim
    | cons b rest =>
        refine ⟨b, seen', [b], rest, ⟨rfl, rfl⟩, ?_, rfl⟩
        dsimp only
        by_cases last : b &&& 0x80 = 0
        · have ends : rest = [] := (if_pos last).mp leb
          rw [if_pos last]
          refine ⟨ends, UInt64.toNat_inj.mp ?_, rfl⟩
          rw [value b, read, ends]
          simp [lebValue]
        · rw [if_neg last]
          refine ⟨(if_neg last).mp leb, by simpa using short, ?_, rfl⟩
          rw [read, value b, lebValue, lebValue_append_pow, ← Nat.add_assoc, Nat.mod_add_mod]
  · rintro ⟨b, seen₁, first, rest, ⟨rfl, rfl⟩, stands, rfl⟩
    dsimp only at stands
    by_cases last : b &&& 0x80 = 0
    · rw [if_pos last] at stands
      obtain ⟨rfl, rfl, rfl⟩ := stands
      refine ⟨(if_pos last).mpr rfl, by simp, ?_, rfl⟩
      rw [value b]
      simp [lebValue]
    · rw [if_neg last] at stands
      obtain ⟨leb, short, read, rfl⟩ := stands
      refine ⟨(if_neg last).mpr leb, by simpa using short, ?_, rfl⟩
      rw [read, value b, Nat.mod_add_mod]
      show _ = (v.toNat + ((b &&& 0x7F).toNat + lebValue rest * 2 ^ 7) * 2 ^ (7 * i)) % 2 ^ 64
      rw [lebValue_append_pow, ← Nat.add_assoc]

/-- A step that takes the byte under the cursor when there is one. -/
theorem reads_byte {x : Decoder UInt8}
    (there : ∀ before b after touched seen, ∃ touched',
      x (before ++ b :: after) ⟨before.length, touched, seen⟩ =
        (.ok b, ⟨before.length + 1, touched', seen⟩))
    (gone : ∀ before touched seen b c', x before ⟨before.length, touched, seen⟩ ≠ (.ok b, c')) :
    Reader.Reads x Layout.byte where
  sound := by
    intro before input touched seen b c' run
    cases input with
    | nil =>
        rw [List.append_nil] at run
        exact absurd run (gone before touched seen b c')
    | cons b' after =>
        obtain ⟨touched', here⟩ := there before b' after touched seen
        rw [here] at run
        cases run
        exact ⟨[b], after, rfl, ⟨rfl, rfl⟩, rfl⟩
  complete := by
    rintro before w after touched seen b seen' ⟨rfl, rfl⟩
    exact there before b after touched seen'

theorem reads_takeU8 : Reader.Reads takeU8 Layout.byte := by
  refine reads_byte (fun before b after touched seen => ?_) fun before touched seen b c' run => ?_
  · refine ⟨max touched (before.length + 1), ?_⟩
    have inside : ¬(before.length > (before ++ b :: after).length ∨
        1 > (before ++ b :: after).length - before.length) := by
      simp
    unfold takeU8
    rw [if_neg inside, nextByte_run]
  · unfold takeU8 at run
    rw [if_pos (.inr (by simp))] at run
    cases run

theorem reads_takeVarintByte : Reader.Reads takeVarintByte Layout.byte := by
  refine reads_byte (fun before b after touched seen => ?_) fun before touched seen b c' run => ?_
  · refine ⟨max touched (before.length + 1), ?_⟩
    have inside : ¬before.length ≥ (before ++ b :: after).length := by simp
    unfold takeVarintByte
    rw [if_neg inside, nextByte_run]
  · unfold takeVarintByte at run
    rw [if_pos (Nat.le_refl _)] at run
    cases run

theorem reads_takeVarintFrom (left : Nat) : ∀ (i : Nat) (v : UInt64), left + i = 10 →
    v.toNat < 2 ^ (7 * i) → Reader.Reads (takeVarintFrom left i v) (varintRest left i v) := by
  induction left with
  | zero =>
      intro i v _ _
      refine (Reader.Reads.failAt _).congr fun seen w r seen' => ⟨?_, fun none_ => none_.elim⟩
      rintro ⟨leb, short, -, -⟩
      rw [List.eq_nil_of_length_eq_zero (Nat.le_zero.mp short)] at leb
      exact leb
  | succ left inductionHypothesis =>
      intro i v place low
      refine Reader.Reads.congr (Reader.Reads.bind reads_takeVarintByte fun b => ?_)
        (varintRest_succ (by omega) low)
      refine Reader.Reads.ite (Reader.Reads.pure _) (inductionHypothesis (i + 1) _ (by omega) ?_)
      rw [toNat_or_shift b (by omega) low]
      have group : (b &&& 0x7F).toNat < 2 ^ 7 := by
        rw [UInt8.toNat_and]
        exact Nat.lt_of_le_of_lt Nat.and_le_right (by decide)
      have whole : 2 ^ (7 * (i + 1)) = 2 ^ 7 * 2 ^ (7 * i) := by
        rw [← Nat.pow_add]
        congr 1
        omega
      have above : ((b &&& 0x7F).toNat + 1) * 2 ^ (7 * i) ≤ 2 ^ 7 * 2 ^ (7 * i) :=
        Nat.mul_le_mul_right _ group
      rw [Nat.add_mul, Nat.one_mul] at above
      refine Nat.lt_of_le_of_lt (Nat.mod_le _ _) ?_
      omega

/-- **The decoder takes the low bits of a number of at most ten bytes.** -/
theorem reads_takeVarint : Reader.Reads takeVarint (varintForm AnyValue) := by
  refine Reader.Reads.congr (reads_takeVarintFrom 10 0 0 rfl (by decide))
    fun seen w v seen' => ?_
  have value : v.toNat = ((0 : UInt64).toNat + lebValue w * 2 ^ (7 * 0)) % 2 ^ 64 ↔
      v = UInt64.ofNat (lebValue w) := by
    rw [← UInt64.toNat_inj, UInt64.toNat_ofNat']
    simp
  unfold varintForm varintRest AnyValue
  rw [value]
  simp only [true_and]

/-! ## The decoder reads strings and parts -/

theorem reads_takeReference (index : UInt64) :
    Reader.Reads (takeReference index) (referenceForm index) where
  sound := by
    intro before input touched seen s c' run
    unfold takeReference at run
    cases found : seen[index.toNat]? with
    | none =>
        dsimp only at run
        rw [found] at run
        cases run
    | some s' =>
        dsimp only at run
        rw [found] at run
        cases run
        exact ⟨[], input, rfl, ⟨rfl, found, rfl⟩, rfl⟩
  complete := by
    rintro before w after touched seen s seen' ⟨rfl, found, rfl⟩
    refine ⟨touched, ?_⟩
    unfold takeReference
    dsimp only
    rw [found]
    rfl

/-- A step that takes a known number of bytes when they are there. -/
theorem reads_run {x : Decoder Bytes} {size : Nat} {added : Bytes → List Bytes}
    (there : ∀ before data after touched seen, data.length = size → ∃ touched',
      x (before ++ (data ++ after)) ⟨before.length, touched, seen⟩ =
        (.ok data, ⟨before.length + size, touched', seen ++ added data⟩))
    (gone : ∀ before input touched seen s c', input.length < size →
      x (before ++ input) ⟨before.length, touched, seen⟩ ≠ (.ok s, c')) :
    Reader.Reads x fun seen w s seen' => w = s ∧ s.length = size ∧ seen' = seen ++ added s where
  sound := by
    intro before input touched seen s c' run
    by_cases short : input.length < size
    · exact absurd run (gone before input touched seen s c' short)
    · have length : (input.take size).length = size := by
        rw [List.length_take]
        omega
      obtain ⟨touched', here⟩ :=
        there before (input.take size) (input.drop size) touched seen length
      rw [List.take_append_drop, run] at here
      cases here
      exact ⟨_, input.drop size, (List.take_append_drop ..).symm, ⟨rfl, length, rfl⟩,
        by rw [length]⟩
  complete := by
    rintro before w after touched seen s seen' ⟨rfl, length, rfl⟩
    rw [length]
    exact there before w after touched seen length

theorem reads_takeInline (len : UInt64) : Reader.Reads (takeInline len) (inlineForm len) := by
  refine @reads_run _ _ (fun s => [s]) (fun before data after touched seen length => ?_)
    fun before input touched seen s c' short run => ?_
  · refine ⟨max touched (before.length + data.length), ?_⟩
    have inside : ¬(before.length > (before ++ (data ++ after)).length ∨
        data.length > (before ++ (data ++ after)).length - before.length) := by
      simp
    unfold takeInline
    rw [← length, if_neg inside, rawBytes_run]
  · unfold takeInline at run
    rw [if_pos (.inr (by simpa using short))] at run
    cases run

theorem reads_takeData (len : UInt64) : Reader.Reads (takeData len) (Layout.run len.toNat) := by
  refine Reader.Reads.congr (@reads_run _ len.toNat (fun _ => [])
    (fun before data after touched seen length => ?_)
    fun before input touched seen s c' short run => ?_) fun seen w s seen' => ?_
  · refine ⟨max touched (before.length + data.length), ?_⟩
    have inside : ¬remaining (before ++ (data ++ after)).length before.length < data.length := by
      unfold remaining
      rw [if_neg (by simp)]
      simp
    unfold takeData
    rw [← length, if_neg inside, rawBytes_run, List.append_nil]
  · have short_ : remaining (before ++ input).length before.length < len.toNat := by
      unfold remaining
      rw [if_neg (by simp)]
      simpa using short
    unfold takeData at run
    rw [if_pos short_] at run
    cases run
  · rw [List.append_nil]
    rfl

theorem reads_takeString : Reader.Reads takeString (stringForm AnyValue) :=
  reads_takeU8.bind fun _ =>
    .ite (reads_takeVarint.bind reads_takeReference)
      (.ite (.failAt _) (reads_takeVarint.bind reads_takeInline))

theorem reads_takeMember {α : Type} (ofByte : UInt8 → Option α) :
    Reader.Reads (takeMember ofByte) (memberForm ofByte) :=
  reads_takeU8.bind fun b => by
    cases ofByte b with
    | none => exact .failAt _
    | some a => exact .pure a

theorem reads_takeFlag : Reader.Reads takeFlag flagForm :=
  reads_takeU8.bind fun _ => .ite (.failAt _) (.pure _)

theorem reads_decodeFields (kind : PartKind) :
    Reader.Reads (decodeFields kind) (fieldsForm AnyValue kind) := by
  cases kind with
  | text => exact reads_takeString.bind fun _ => .pure _
  | reasoning => exact reads_takeString.bind fun _ => .pure _
  | imageUrl => exact reads_takeString.bind fun _ => .pure _
  | binary =>
      exact reads_takeString.bind fun _ => reads_takeVarint.bind fun len =>
        (reads_takeData len).bind fun _ => .pure _
  | toolCall =>
      exact reads_takeString.bind fun _ => reads_takeString.bind fun _ =>
        reads_takeString.bind fun _ => reads_takeFlag.bind fun _ => .pure _
  | toolResult =>
      exact reads_takeString.bind fun _ => reads_takeString.bind fun _ =>
        reads_takeFlag.bind fun _ => .pure _
  | finish => exact (reads_takeMember _).bind fun _ => .pure _

theorem reads_decodeParts (count : Nat) :
    Reader.Reads (decodeParts count) (partsForm AnyValue count) := by
  induction count with
  | zero => exact .pure []
  | succ count inductionHypothesis =>
      exact ((reads_takeMember _).bind reads_decodeFields).bind fun _ =>
        inductionHypothesis.bind fun _ => .pure _

theorem reads_decodeHeader : Reader.Reads decodeHeader (headerForm AnyValue) :=
  reads_takeU8.bind fun _ => .ite (.failAt _)
    (reads_takeString.bind fun _ => reads_takeString.bind fun _ =>
      (reads_takeMember _).bind fun _ => reads_takeString.bind fun _ =>
        reads_takeVarint.bind fun _ => reads_takeVarint.bind fun _ => .pure _)

/-- **The decoder reads the lenient layout.** -/
theorem reads_decode : Reader.Reads decode (messageForm AnyValue) :=
  reads_decodeHeader.bind fun header => .ite (.failAt _)
    ((reads_decodeParts header.2.toNat).bind fun _ => .pure _)

end Opencodepp.Msg
