import Opencodepp.Msg.Codec

/-!
# What the message codec turns down

The decoder checks every bound before it reads.  Two properties of its parts carry the result
of this module, `decode_rejects_cleanly`: no success depends on bytes that were not read, so
that a message cut short cannot pass for another one; and neither the cursor nor the bytes
looked at ever leave the input.
-/

set_option autoImplicit false

namespace Opencodepp.Msg

open Opencodepp.Core
open Opencodepp.Library

/-- The errors of the decoder: another version, or an offset within the input. -/
def Malformed (size : Nat) (e : Failure) : Prop :=
  e.ec.code = .eProtoParse ∧
    (e.ec.detail = kCodecDetailVersionMismatch ∨ e.ec.detail.toNat ≤ size)

theorem malformed_protoError {offset size : Nat} (within : offset ≤ size) :
    Malformed size (protoError offset) := by
  refine ⟨rfl, .inr ?_⟩
  show (UInt32.ofNat offset).toNat ≤ size
  rw [UInt32.toNat_ofNat']
  exact Nat.le_trans (Nat.mod_le _ _) within

/-- Neither looks ahead nor leaves the input. -/
structure Careful {α : Type} (x : Decoder α) : Prop where
  steady : Reader.Steady x
  bounded : Reader.Bounded Malformed x

namespace Careful

variable {α β : Type}

theorem pure (a : α) : Careful (Pure.pure a : Decoder α) := ⟨.pure a, .pure a⟩

theorem bind {x : Decoder α} {f : α → Decoder β} (first : Careful x)
    (second : ∀ a, Careful (f a)) : Careful (x >>= f) :=
  ⟨.bind first.steady fun a => (second a).steady, .bind first.bounded fun a => (second a).bounded⟩

theorem ite {p : Prop} [Decidable p] {x y : Decoder α} (left : Careful x) (right : Careful y) :
    Careful (if p then x else y) :=
  ⟨.ite left.steady right.steady, .ite left.bounded right.bounded⟩

theorem failAt {e : Nat → Failure} (kind : ∀ size pos, pos ≤ size → Malformed size (e pos)) :
    Careful (Reader.failAt e : Decoder α) :=
  ⟨.failAt e, .failAt kind⟩

theorem failHere : Careful (Reader.failAt protoError : Decoder α) :=
  failAt fun _ _ within => malformed_protoError within

theorem failBefore : Careful (Reader.failAt fun pos => protoError (pos - 1) : Decoder α) :=
  failAt fun _ pos within => malformed_protoError (Nat.le_trans (Nat.sub_le pos 1) within)

end Careful

/-- A step of the decoder that looks at `n` bytes under the cursor after it has checked that they
are there. -/
theorem careful_checked {α : Type} {x : Decoder α} {n : Nat}
    (reads : ∀ input c, c.pos + n ≤ input.length → ∃ a memo, ∀ more,
      x (input ++ more) c = (.ok a, ⟨c.pos + n, max c.touched (c.pos + n), memo⟩))
    (refuses : ∀ input c, c.pos ≤ input.length → ¬c.pos + n ≤ input.length →
      x input c = (.error (protoError c.pos), c))
    (away : ∀ input more c a c', ¬c.pos ≤ input.length → x input c = (.ok a, c') →
      x (input ++ more) c = (.ok a, c')) : Careful x := by
  constructor
  · intro input more c a c' run
    by_cases there : c.pos + n ≤ input.length
    · obtain ⟨a', memo, all⟩ := reads input c there
      have here := all []
      rw [List.append_nil, run] at here
      rw [all more, here]
    · by_cases within : c.pos ≤ input.length
      · rw [refuses input c within there] at run
        cases run
      · exact away input more c a c' within run
  · intro input c bounds
    by_cases there : c.pos + n ≤ input.length
    · obtain ⟨a, memo, all⟩ := reads input c there
      have here := all []
      rw [List.append_nil] at here
      unfold Program.wp
      rw [here]
      exact ⟨there, Nat.max_le.mpr ⟨bounds.touched, there⟩⟩
    · unfold Program.wp
      rw [refuses input c bounds.pos there]
      exact ⟨malformed_protoError bounds.pos, bounds⟩

/-! ## The steps of the decoder -/

theorem getD_append_of_lt {input more : Bytes} {i : Nat} (inside : i < input.length) :
    (input ++ more).getD i 0 = input.getD i 0 := by
  simp [List.getD_eq_getElem?_getD, List.getElem?_append_left inside]

theorem slice_append {input more : Bytes} {pos n : Nat} (inside : pos + n ≤ input.length) :
    ((input ++ more).drop pos).take n = (input.drop pos).take n := by
  rw [List.drop_append_of_le_length (by omega), List.take_append_of_le_length]
  rw [List.length_drop]
  omega

theorem careful_takeU8 : Careful takeU8 := by
  refine careful_checked (n := 1) ?_ ?_ ?_
  · intro input c there
    refine ⟨input.getD c.pos 0, c.memo, fun more => ?_⟩
    have inside : ¬(c.pos > (input ++ more).length ∨ 1 > (input ++ more).length - c.pos) := by
      rw [List.length_append]
      omega
    unfold takeU8
    rw [if_neg inside]
    unfold nextByte
    rw [getD_append_of_lt (by omega)]
  · intro input c within short
    unfold takeU8
    rw [if_pos (.inr (by omega)), Nat.min_eq_left within]
  · intro input more c a c' outside run
    unfold takeU8 at run
    rw [if_pos (.inl (by omega))] at run
    cases run

theorem careful_takeVarintByte : Careful takeVarintByte := by
  refine careful_checked (n := 1) ?_ ?_ ?_
  · intro input c there
    refine ⟨input.getD c.pos 0, c.memo, fun more => ?_⟩
    have inside : ¬c.pos ≥ (input ++ more).length := by
      rw [List.length_append]
      omega
    unfold takeVarintByte
    rw [if_neg inside]
    unfold nextByte
    rw [getD_append_of_lt (by omega)]
  · intro input c within short
    unfold takeVarintByte
    rw [if_pos (by omega)]
  · intro input more c a c' outside run
    unfold takeVarintByte at run
    rw [if_pos (by omega)] at run
    cases run

theorem careful_takeVarintFrom (left : Nat) : ∀ (i : Nat) (v : UInt64),
    Careful (takeVarintFrom left i v) := by
  induction left with
  | zero =>
      intro i v
      exact .failBefore
  | succ left inductionHypothesis =>
      intro i v
      refine careful_takeVarintByte.bind fun b => ?_
      exact .ite (.pure _) (inductionHypothesis _ _)

theorem careful_takeReference (index : UInt64) : Careful (takeReference index) := by
  constructor
  · intro input more c a c' run
    exact run
  · intro input c bounds
    cases found : c.memo[index.toNat]? with
    | none =>
        have run : takeReference index input c = (.error (protoError c.pos), c) := by
          unfold takeReference
          rw [found]
        unfold Program.wp
        rw [run]
        exact ⟨malformed_protoError bounds.pos, bounds⟩
    | some s =>
        have run : takeReference index input c = (.ok s, c) := by
          unfold takeReference
          rw [found]
        unfold Program.wp
        rw [run]
        exact bounds

theorem careful_takeInline (len : UInt64) : Careful (takeInline len) := by
  refine careful_checked (n := len.toNat) ?_ ?_ ?_
  · intro input c there
    refine ⟨(input.drop c.pos).take len.toNat, c.memo ++ [(input.drop c.pos).take len.toNat],
      fun more => ?_⟩
    have inside : ¬(c.pos > (input ++ more).length ∨
        len.toNat > (input ++ more).length - c.pos) := by
      rw [List.length_append]
      omega
    unfold takeInline
    rw [if_neg inside]
    unfold rawBytes
    dsimp only
    rw [slice_append there]
  · intro input c within short
    unfold takeInline
    rw [if_pos (.inr (by omega))]
  · intro input more c a c' outside run
    unfold takeInline at run
    rw [if_pos (.inl (by omega))] at run
    cases run

theorem careful_takeData (len : UInt64) : Careful (takeData len) := by
  refine careful_checked (n := len.toNat) ?_ ?_ ?_
  · intro input c there
    refine ⟨(input.drop c.pos).take len.toNat, c.memo, fun more => ?_⟩
    have inside : ¬remaining (input ++ more).length c.pos < len.toNat := by
      unfold remaining
      rw [List.length_append, if_neg (by omega)]
      omega
    unfold takeData
    rw [if_neg inside]
    unfold rawBytes
    rw [slice_append there]
  · intro input c within short
    have left : remaining input.length c.pos = input.length - c.pos := if_neg (by omega)
    unfold takeData
    rw [left, if_pos (by omega)]
  · intro input more c a c' outside run
    have left : remaining input.length c.pos = 0 := if_pos (by omega)
    unfold takeData at run
    rw [left] at run
    split at run
    · cases run
    · -- only an empty piece is granted out there
      have empty : len.toNat = 0 := by omega
      unfold takeData
      rw [if_neg (by rw [empty]; exact Nat.not_lt_zero _)]
      unfold rawBytes at run ⊢
      rw [empty, List.take_zero] at run ⊢
      exact run

theorem careful_takeVarint : Careful takeVarint := careful_takeVarintFrom 10 0 0

theorem careful_takeString : Careful takeString := by
  refine careful_takeU8.bind fun flag => ?_
  refine .ite (careful_takeVarint.bind careful_takeReference) (.ite .failBefore ?_)
  exact careful_takeVarint.bind careful_takeInline

theorem careful_takeMember {α : Type} (ofByte : UInt8 → Option α) : Careful (takeMember ofByte) := by
  refine careful_takeU8.bind fun b => ?_
  cases ofByte b with
  | none => exact .failHere
  | some a => exact .pure a

theorem careful_takeFlag : Careful takeFlag :=
  careful_takeU8.bind fun _ => .ite .failHere (.pure _)

theorem careful_decodeFields (kind : PartKind) : Careful (decodeFields kind) := by
  cases kind with
  | text => exact careful_takeString.bind fun _ => .pure _
  | reasoning => exact careful_takeString.bind fun _ => .pure _
  | imageUrl => exact careful_takeString.bind fun _ => .pure _
  | binary =>
      refine careful_takeString.bind fun _ => careful_takeVarint.bind fun len => ?_
      exact (careful_takeData len).bind fun _ => .pure _
  | toolCall =>
      refine careful_takeString.bind fun _ => careful_takeString.bind fun _ => ?_
      exact careful_takeString.bind fun _ => careful_takeFlag.bind fun _ => .pure _
  | toolResult =>
      refine careful_takeString.bind fun _ => careful_takeString.bind fun _ => ?_
      exact careful_takeFlag.bind fun _ => .pure _
  | finish => exact (careful_takeMember _).bind fun _ => .pure _

theorem careful_decodeParts (count : Nat) : Careful (decodeParts count) := by
  induction count with
  | zero => exact .pure []
  | succ count inductionHypothesis =>
      have part : Careful decodePart := (careful_takeMember _).bind careful_decodeFields
      exact part.bind fun _ => inductionHypothesis.bind fun _ => .pure _

theorem careful_decodeHeader : Careful decodeHeader := by
  refine careful_takeU8.bind fun version => .ite (.failAt fun _ _ _ => ⟨rfl, .inl rfl⟩) ?_
  refine careful_takeString.bind fun _ => careful_takeString.bind fun _ => ?_
  refine (careful_takeMember _).bind fun _ => careful_takeString.bind fun _ => ?_
  exact careful_takeVarint.bind fun _ => careful_takeVarint.bind fun _ => .pure _

/-- **The decoder is careful**: no success depends on bytes it has not read, and it never leaves
the input. -/
theorem careful_decode : Careful decode :=
  careful_decodeHeader.bind fun _ =>
    .ite .failHere ((careful_decodeParts _).bind fun _ => .pure _)

theorem start_inBounds (size : Nat) : (⟨0, 0, []⟩ : Cursor (List Bytes)).InBounds size :=
  ⟨Nat.zero_le _, Nat.zero_le _⟩

/-! ## Inputs that are turned down -/

/-- A message with too many parts is turned down after its header. -/
theorem decodeRun_of_many {m : Message} (sized : m.Sized) (many : kCodecMaxParts < m.parts.length) :
    ∃ e c, decodeRun (encodeMessage m) = (.error e, c) := by
  have empty : Agree 0 [] [] := ⟨rfl, Nat.le_refl _⟩
  obtain ⟨seen, touched, -, header⟩ := recovers_decodeHeader sized [] [] empty []
    (encodeParts m.parts (encodeHeader m []).2).1 0
  have run : decodeRun (encodeMessage m) = _ := Reader.bind_ok header
  dsimp only at run
  rw [toNat_count sized, if_pos many] at run
  exact ⟨_, _, run⟩

/-- A run over a whole encoded message that succeeds has consumed it. -/
theorem consumed_of_decodeRun {m decoded : Message} {c : Cursor (List Bytes)} (sized : m.Sized)
    (run : decodeRun (encodeMessage m) = (.ok decoded, c)) : c.pos = (encodeMessage m).length := by
  rcases Nat.lt_or_ge kCodecMaxParts m.parts.length with many | few
  · obtain ⟨e, c', fails⟩ := decodeRun_of_many sized many
    rw [fails] at run
    cases run
  · obtain ⟨seen, touched, whole⟩ := decodeRun_encodeMessage sized few
    rw [whole] at run
    cases run
    rfl

/-- **Every strict prefix of an encoded message is turned down**, and a failure of any kind
leaves the caller's message alone, looks at no byte past the input, and names another version or
an offset within the input. -/
theorem decode_rejects_cleanly :
    (∀ (m : Message), m.Sized → ∀ (cut : Bytes), cut <+: encodeMessage m → cut ≠ encodeMessage m →
      ∀ out, ∃ detail, decodeMessage cut out = (⟨.eProtoParse, detail⟩, out)) ∧
    (∀ (s : Bytes), s.length < 2 ^ 32 → ∀ out, (decodeMessage s out).1.ok = false →
      (decodeMessage s out).2 = out ∧ (decodeRun s).2.touched ≤ s.length ∧
      ((decodeMessage s out).1.detail = kCodecDetailVersionMismatch ∨
        (decodeMessage s out).1.detail.toNat ≤ s.length)) := by
  constructor
  · intro m sized cut part strict out
    obtain ⟨e, c, run, malformed⟩ := careful_decode.steady.fails_of_prefix careful_decode.bounded
      (start_inBounds cut.length) (fun _ _ run => consumed_of_decodeRun sized run) part strict
    refine ⟨e.ec.detail, ?_⟩
    have failed : (decodeRun cut).1 = .error e := congrArg Prod.fst run
    unfold decodeMessage
    rw [failed, ← malformed.1]
  · intro s _ out failed
    have ends := careful_decode.bounded s ⟨0, 0, []⟩ (start_inBounds s.length)
    rcases run : decodeRun s with ⟨e | m, c⟩
    · have exits := Program.wp_of_exits ends run
      unfold decodeMessage
      rw [run]
      exact ⟨rfl, exits.2.touched, exits.1.2⟩
    · unfold decodeMessage at failed
      rw [run] at failed
      cases failed

/-- Cut after one byte. -/
theorem decode_rejects_cut_noted :
    noted.Sized ∧ [kCodecVersion] <+: encodeMessage noted ∧
      ∃ detail, decodeMessage [kCodecVersion] noted = (⟨.eProtoParse, detail⟩, noted) := by
  have part : [kCodecVersion] <+: encodeMessage noted := ⟨_, rfl⟩
  have strict : [kCodecVersion] ≠ encodeMessage noted := by decide
  exact ⟨sized_noted, part,
    decode_rejects_cleanly.1 noted sized_noted [kCodecVersion] part strict noted⟩

end Opencodepp.Msg
