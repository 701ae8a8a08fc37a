import Opencodepp.Msg.CodecRejection
import Opencodepp.Msg.WireLayout

/-!
# What the codec accepts

The encoder writes the strict layout, the decoder reads the lenient one and does not look
whether its input goes on.  `decode_accepts_layout_iff` says when that is the strict layout of
the whole input, and that a message is accepted exactly when it has no more parts than the
decoder allows; the encoder has no such limit.
-/

set_option autoImplicit false

namespace Opencodepp.Msg

open Opencodepp.Core
open Opencodepp.Library

/-! ## The strict layout is the narrower one -/

theorem within_varintForm : (varintForm Below64).Within (varintForm AnyValue) :=
  fun _ _ _ _ ⟨leb, short, _, read, same⟩ => ⟨leb, short, trivial, read, same⟩

theorem within_stringForm : (stringForm Below64).Within (stringForm AnyValue) :=
  (Layout.Within.refl _).bind fun _ =>
    .ite (within_varintForm.bind fun _ => .refl _)
      (.ite (.refl _) (within_varintForm.bind fun _ => .refl _))

theorem within_fieldsForm (kind : PartKind) :
    (fieldsForm Below64 kind).Within (fieldsForm AnyValue kind) := by
  cases kind with
  | text => exact within_stringForm.bind fun _ => .refl _
  | reasoning => exact within_stringForm.bind fun _ => .refl _
  | imageUrl => exact within_stringForm.bind fun _ => .refl _
  | binary => exact within_stringForm.bind fun _ => within_varintForm.bind fun _ => .refl _
  | toolCall =>
      exact within_stringForm.bind fun _ => within_stringForm.bind fun _ =>
        within_stringForm.bind fun _ => .refl _
  | toolResult =>
      exact within_stringForm.bind fun _ => within_stringForm.bind fun _ => .refl _
  | finish => exact .refl _

theorem within_partsForm (count : Nat) :
    (partsForm Below64 count).Within (partsForm AnyValue count) := by
  induction count with
  | zero => exact .refl _
  | succ count inductionHypothesis =>
      exact ((Layout.Within.refl _).bind within_fieldsForm).bind fun _ =>
        inductionHypothesis.bind fun _ => .refl _

theorem within_messageForm : (messageForm Below64).Within (messageForm AnyValue) := by
  have header : (headerForm Below64).Within (headerForm AnyValue) :=
    (Layout.Within.refl _).bind fun _ => .ite (.refl _)
      (within_stringForm.bind fun _ => within_stringForm.bind fun _ =>
        (Layout.Within.refl _).bind fun _ => within_stringForm.bind fun _ =>
          within_varintForm.bind fun _ => within_varintForm.bind fun _ => .refl _)
  exact header.bind fun header => .ite (.refl _)
    ((within_partsForm header.2.toNat).bind fun _ => .refl _)

theorem Wire.lenient {w : Bytes} {m : Message} (wire : Wire Below64 w m) : Wire AnyValue w m := by
  obtain ⟨seen, stands⟩ := wire
  exact ⟨seen, within_messageForm [] w m seen stands⟩

/-! ## The encoder writes the strict layout -/

/-- A written number is a LEB128 number. -/
theorem leb_putVarintFrom (room : Nat) : ∀ v : Nat, v < 2 ^ (7 * (room + 1)) →
    IsLeb (putVarintFrom room v) ∧ (putVarintFrom room v).length ≤ room + 1 ∧
      lebValue (putVarintFrom room v) = v := by
  have last {v : Nat} (small : v < 0x80) (room : Nat) : IsLeb [UInt8.ofNat v] ∧
      [UInt8.ofNat v].length ≤ room + 1 ∧ lebValue [UInt8.ofNat v] = v := by
    obtain ⟨payload, ends⟩ := payload_of_last small
    refine ⟨(if_pos ends).mpr rfl, by simp, ?_⟩
    show (UInt8.ofNat v &&& 0x7F).toNat + 0 * 2 ^ 7 = v
    rw [payload, Nat.zero_mul, Nat.add_zero]
  induction room with
  | zero => exact fun v small => last small 0
  | succ room inductionHypothesis =>
      intro v below
      unfold putVarintFrom
      split
      · next small => exact last small (room + 1)
      · have shifted : v >>> 7 = v / 2 ^ 7 := Nat.shiftRight_eq_div_pow v 7
        have fewer : v >>> 7 < 2 ^ (7 * (room + 1)) := by
          rw [shifted, Nat.div_lt_iff_lt_mul (by decide), ← Nat.pow_add]
          exact below
        obtain ⟨leb, short, value⟩ := inductionHypothesis (v >>> 7) fewer
        obtain ⟨payload, continues⟩ := payload_of_continued v
        refine ⟨(if_neg continues).mpr leb, Nat.succ_le_succ short, ?_⟩
        show ((UInt8.ofNat v ||| 0x80) &&& 0x7F).toNat +
          lebValue (putVarintFrom room (v >>> 7)) * 2 ^ 7 = v
        rw [payload, value, shifted]
        omega

theorem varintForm_putVarint (seen : List Bytes) (v : UInt64) :
    varintForm Below64 seen (putVarint v) v seen := by
  have bound := v.toNat_lt
  obtain ⟨leb, short, value⟩ := leb_putVarintFrom 9 v.toNat (by omega)
  refine ⟨leb, short, ?_, ?_, rfl⟩
  · show lebValue (putVarintFrom 9 v.toNat) < 2 ^ 64
    rw [value]
    exact bound
  · show v = UInt64.ofNat (lebValue (putVarintFrom 9 v.toNat))
    rw [value, UInt64.ofNat_toNat]

section Written

variable {μ : Type} {R : μ → List Bytes → Prop}

theorem written_varint (v : UInt64) :
    Layout.Written R R (.bytes (putVarint v)) (varintForm Below64) v :=
  fun _ seen related => ⟨seen, related, varintForm_putVarint seen v⟩

theorem written_member {α : Type} {ofByte : UInt8 → Option α} {b : UInt8} {a : α}
    (member : ofByte b = some a) : Layout.Written R R (.bytes [b]) (memberForm ofByte) a := by
  refine Layout.Written.bind_nothing (Layout.Written.byte b) ?_
  rw [member]
  exact Layout.Written.pure a

theorem written_flag (flag : Bool) :
    Layout.Written R R (.bytes [if flag then 1 else 0]) flagForm flag := by
  refine Layout.Written.bind_nothing (Layout.Written.byte _) ?_
  cases flag <;> exact Layout.Written.pure _

theorem written_run {data : Bytes} (sized : Sized data) :
    Layout.Written R R (.bytes data) (Layout.run (UInt64.ofNat data.length).toNat) data :=
  fun _ seen related => ⟨seen, related, rfl, (toNat_size sized).symm, rfl⟩

end Written

/-- A written string stands in line or refers to the same string. -/
theorem written_string {bound : Nat} (small : bound ≤ 2 ^ 32) {s : Bytes} (sized : Sized s) :
    Layout.Written (Agree bound) (Agree (bound + 1)) (writeString s) (stringForm Below64) s := by
  intro dict seen agree
  unfold writeString
  cases found : dict.lookup s with
  | some index =>
      refine ⟨seen, agree.mono (Nat.le_succ _), 0x01, seen, [0x01], putVarint index.toUInt64,
        ⟨rfl, rfl⟩, ?_, rfl⟩
      show (varintForm Below64 >>= referenceForm) seen (putVarint index.toUInt64) s seen
      exact ⟨index.toUInt64, seen, _, [], varintForm_putVarint seen _,
        ⟨rfl, agree.reference small found, rfl⟩, (List.append_nil _).symm⟩
  | none =>
      refine ⟨seen ++ [s], agree.inline s, 0x00, seen, [0x00],
        putVarint (UInt64.ofNat s.length) ++ s, ⟨rfl, rfl⟩, ?_, rfl⟩
      show (varintForm Below64 >>= inlineForm) seen (putVarint (UInt64.ofNat s.length) ++ s) s
        (seen ++ [s])
      exact ⟨UInt64.ofNat s.length, seen, _, s, varintForm_putVarint seen _,
        ⟨rfl, (toNat_size sized).symm, rfl⟩, rfl⟩

theorem written_fields {bound : Nat} (small : bound + 3 ≤ 2 ^ 32) (p : Part) (sized : p.Sized) :
    Layout.Written (Agree bound) (Agree (bound + 3)) (.all (encodeFields p))
      (fieldsForm Below64 p.kind) p := by
  have grows (k : Nat) (le : k ≤ 3) (p : Part) : Layout.Written (Agree (bound + k))
      (Agree (bound + 3)) .nothing (pure p : Layout (List Bytes) Part) p :=
    (Layout.Written.pure p).mono fun _ _ agree => agree.mono (Nat.add_le_add_left le bound)
  cases p with
  | text content => exact (written_string (by omega) sized).bind (grows 1 (by decide) _)
  | reasoning content => exact (written_string (by omega) sized).bind (grows 1 (by decide) _)
  | imageUrl url => exact (written_string (by omega) sized).bind (grows 1 (by decide) _)
  | binary mime data =>
      exact (written_string (by omega) sized.1).bind ((written_varint _).bind
        ((written_run sized.2).bind (grows 1 (by decide) _)))
  | toolCall call =>
      obtain ⟨id, name, inputJson⟩ := sized
      exact (written_string (by omega) id).bind ((written_string (by omega) name).bind
        ((written_string (by omega) inputJson).bind
          ((written_flag call.finished).bind (grows 3 (by decide) _))))
  | toolResult result =>
      exact (written_string (by omega) sized.1).bind ((written_string (by omega) sized.2).bind
        ((written_flag result.isError).bind (grows 2 (by decide) _)))
  | finish reason =>
      exact (written_member (FinishReason.ofByte_byte reason)).bind (grows 0 (by decide) _)

theorem written_part {bound : Nat} (small : bound + 3 ≤ 2 ^ 32) {p : Part} (sized : p.Sized) :
    Layout.Written (Agree bound) (Agree (bound + 3)) (encodePart p) (partForm Below64) p :=
  (written_member (PartKind.ofByte_byte p.kind)).bind (written_fields small p sized)

theorem written_parts (parts : List Part) : ∀ bound : Nat,
    bound + 3 * parts.length ≤ 2 ^ 32 → (∀ p ∈ parts, p.Sized) →
      Layout.Written (Agree bound) (Agree (bound + 3 * parts.length)) (encodeParts parts)
        (partsForm Below64 parts.length) parts := by
  induction parts with
  | nil => exact fun bound _ _ => Layout.Written.pure []
  | cons p rest inductionHypothesis =>
      intro bound small sized
      obtain ⟨first, others⟩ := List.forall_mem_cons.mp sized
      rw [List.length_cons] at small ⊢
      have later := inductionHypothesis (bound + 3) (by omega) others
      rw [show bound + 3 + 3 * rest.length = bound + 3 * (rest.length + 1) by omega] at later
      exact (written_part (by omega) first).bind (later.bind_nothing (Layout.Written.pure _))

theorem written_header {m : Message} (sized : m.Sized) :
    Layout.Written (Agree 0) (Agree 3) (encodeHeader m) (headerForm Below64)
      ({ m with parts := [] }, UInt64.ofNat m.parts.length) := by
  unfold encodeHeader headerForm
  refine (Layout.Written.byte kCodecVersion).bind ?_
  rw [if_neg (by simp)]
  exact (written_string (by omega) sized.id).bind ((written_string (by omega) sized.sessionId).bind
    ((written_member (Role.ofByte_byte m.role)).bind ((written_string (by omega) sized.model).bind
      ((written_varint m.createdAt).bind ((written_varint (UInt64.ofNat m.parts.length)).bind
        (Layout.Written.pure _))))))

/-- **The encoder writes the layout** of a message that has no more parts than it allows. -/
theorem wire_encodeMessage {m : Message} (sized : m.Sized)
    (few : m.parts.length ≤ kCodecMaxParts) : Wire Below64 (encodeMessage m) m := by
  have written : Layout.Written (Agree 0) (Agree (3 + 3 * m.parts.length))
      ((encodeHeader m).andThen (encodeParts m.parts)) (messageForm Below64) m := by
    unfold kCodecMaxParts at few
    refine (written_header sized).bind ?_
    dsimp only
    rw [toNat_count sized, if_neg (by unfold kCodecMaxParts; omega)]
    exact (written_parts m.parts 3 (by omega) sized.parts).bind_nothing (Layout.Written.pure _)
  obtain ⟨seen, -, stands⟩ := written [] [] ⟨rfl, Nat.le_refl _⟩
  exact ⟨seen, stands⟩

/-! ## What is accepted -/

theorem decodeMessage_eq_success_iff (s : Bytes) (out m : Message) :
    decodeMessage s out = (.success, m) ↔ (decodeRun s).1 = .ok m := by
  unfold decodeMessage
  cases (decodeRun s).1 with
  | error e =>
      refine ⟨fun same => ?_, fun impossible => by cases impossible⟩
      have failed := e.failed
      rw [(Prod.mk.inj same).1] at failed
      cases failed
  | ok m' => simp

/-- **The decoder accepts what begins with a message of the lenient layout.** -/
theorem decodeMessage_success_iff (s : Bytes) (out m : Message) :
    decodeMessage s out = (.success, m) ↔ ∃ w rest, s = w ++ rest ∧ Wire AnyValue w m := by
  rw [decodeMessage_eq_success_iff]
  have start : (∃ c', decode s ⟨0, 0, []⟩ = (.ok m, c')) ↔
      ∃ w rest seen, s = w ++ rest ∧ messageForm AnyValue [] w m seen := reads_decode.start
  constructor
  · intro run
    obtain ⟨w, rest, seen, split, stands⟩ := start.mp ⟨(decodeRun s).2, Prod.ext run rfl⟩
    exact ⟨w, rest, split, seen, stands⟩
  · rintro ⟨w, rest, split, seen, stands⟩
    obtain ⟨c', run⟩ := start.mpr ⟨w, rest, seen, split, stands⟩
    exact congrArg Prod.fst run

/-- An input with a strict reading of its whole has no other reading of a part. -/
theorem Wire.whole {w rest : Bytes} {m m' : Message} (wire : Wire Below64 (w ++ rest) m)
    (part : Wire AnyValue w m') : rest = [] ∧ Wire Below64 w m' := by
  obtain ⟨seen, whole⟩ := wire.lenient
  obtain ⟨seen', stands⟩ := part
  obtain ⟨-, empty, rfl, -⟩ := reads_decode.unique (List.append_nil _).symm stands whole
  rw [empty, List.append_nil] at wire
  exact ⟨empty, wire⟩

/-- A message is accepted when it has no more parts than the decoder allows. -/
theorem accepted_encodeMessage_iff {m : Message} (sized : m.Sized) (out : Message) :
    (decodeMessage (encodeMessage m) out).1 = .success ↔ m.parts.length ≤ kCodecMaxParts := by
  constructor
  · intro accepted
    by_contra many
    obtain ⟨e, c, run⟩ := decodeRun_of_many sized (Nat.lt_of_not_le many)
    unfold decodeMessage at accepted
    rw [run] at accepted
    have failed := e.failed
    dsimp only at accepted
    rw [accepted] at failed
    cases failed
  · intro few
    rw [(decode_encode_message m out sized few).1]

/-- **When exactly the layout is accepted.**  What is accepted is one whole message of the layout
as long as no reading of a beginning of the input, with numbers taken modulo `2 ^ 64`, leaves
bytes unread or holds a larger number; and what was encoded is accepted as long as the message
has at most `kCodecMaxParts` parts. -/
theorem decode_accepts_layout_iff (s : Bytes) (m out : Message) :
    ((∀ m, decodeMessage s out = (.success, m) → Wire Below64 s m) ↔
      ∀ w rest m, s = w ++ rest → Wire AnyValue w m → rest = [] ∧ Wire Below64 w m) ∧
    (m.Sized →
      ((decodeMessage (encodeMessage m) out).1 = .success ↔ m.parts.length ≤ kCodecMaxParts) ∧
      (m.parts.length ≤ kCodecMaxParts → Wire Below64 (encodeMessage m) m)) := by
  refine ⟨⟨?_, ?_⟩, fun sized =>
    ⟨accepted_encodeMessage_iff sized out, wire_encodeMessage sized⟩⟩
  · rintro strict w rest m rfl part
    have accepted := (decodeMessage_success_iff (w ++ rest) out m).mpr ⟨w, rest, rfl, part⟩
    exact (strict m accepted).whole part
  · intro complete m accepted
    obtain ⟨w, rest, rfl, part⟩ := (decodeMessage_success_iff s out m).mp accepted
    obtain ⟨rfl, wire⟩ := complete w rest m rfl part
    rw [List.append_nil]
    exact wire

theorem decode_accepts_layout_iff_noted :
    noted.Sized ∧ (decodeMessage (encodeMessage noted) noted).1 = .success :=
  ⟨sized_noted, (((decode_accepts_layout_iff [] noted noted).2 sized_noted).1).mpr (by decide)⟩

/-- Ten bytes for a number that 64 bits do not hold. -/
def overlong : Bytes := List.replicate 9 0x80 ++ [0x02]

/-- An empty message, with this number for its time. -/
def stamped (time : Bytes) : Bytes := [1, 0, 0, 0, 0, 0, 0, 0] ++ time ++ [0]

/-- A message with one part too many. -/
def crowded : Message :=
  ⟨[], [], .user, [], List.replicate (kCodecMaxParts + 1) (.finish .unknown), 0⟩

theorem sized_crowded : crowded.Sized where
  id := by unfold Sized; decide
  sessionId := by unfold Sized; decide
  model := by unfold Sized; decide
  parts := fun p member => by
    rw [List.eq_of_mem_replicate member]
    trivial
  count := by
    unfold crowded
    rw [List.length_replicate]
    decide

/-- A message followed by a byte is accepted, and so is a number of more than 64 bits; the bytes
of a message with too many parts are not. -/
theorem decode_accepts_more_and_less :
    ((decodeMessage (encodeMessage noted ++ [0x00]) noted).1 = .success ∧
      ¬∃ m, Wire Below64 (encodeMessage noted ++ [0x00]) m) ∧
    ((decodeMessage (stamped overlong) noted).1 = .success ∧ lebValue overlong = 2 ^ 64) ∧
    (decodeMessage (encodeMessage crowded) noted).1 ≠ .success := by
  have part := (wire_encodeMessage sized_noted (by decide)).lenient
  refine ⟨⟨?_, ?_⟩, ⟨by decide +kernel, by decide⟩, ?_⟩
  · rw [(decodeMessage_success_iff _ noted noted).mpr ⟨_, [0x00], rfl, part⟩]
  · rintro ⟨m, whole⟩
    exact absurd (whole.whole part).1 (List.cons_ne_nil _ _)
  · rw [Ne, accepted_encodeMessage_iff sized_crowded]
    unfold crowded
    rw [List.length_replicate]
    decide

end Opencodepp.Msg
