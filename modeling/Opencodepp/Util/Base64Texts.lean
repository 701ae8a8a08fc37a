import Opencodepp.Util.Base64

/-!
# Base64 texts

A base64 text is an encoding with or without its padding, and with white space anywhere.  The
decoder is meant to give back what such a text encodes, into a buffer of the documented size, and
to refuse every other text.  `b64Decode_contract_iff` says for which texts it does: the buffer is
one byte short for an unpadded text of three characters more than whole groups, and a last group
that is a single character, has bits to spare or is padded wrongly is not noticed.
-/

set_option autoImplicit false

namespace Opencodepp.Util

open Opencodepp.Core
open Opencodepp.Library

/-! ## Groups of six bits -/

/-- The groups of six bits of a byte string, the last one filled up with zeros. -/
def sextets : Bytes → List Nat
  | a :: b :: c :: rest =>
      let v := a.toNat * 65536 + b.toNat * 256 + c.toNat
      v / 262144 :: v / 4096 % 64 :: v / 64 % 64 :: v % 64 :: sextets rest
  | [a] =>
      let v := a.toNat * 65536
      [v / 262144, v / 4096 % 64]
  | [a, b] =>
      let v := a.toNat * 65536 + b.toNat * 256
      [v / 262144, v / 4096 % 64, v / 64 % 64]
  | [] => []

/-- The whole bytes of groups of six bits. -/
def octets : List Nat → Bytes
  | a :: b :: c :: d :: rest =>
      UInt8.ofNat (a * 4 + b / 16) :: UInt8.ofNat (b % 16 * 16 + c / 4) ::
        UInt8.ofNat (c % 4 * 64 + d) :: octets rest
  | [a, b, c] => [UInt8.ofNat (a * 4 + b / 16), UInt8.ofNat (b % 16 * 16 + c / 4)]
  | [a, b] => [UInt8.ofNat (a * 4 + b / 16)]
  | [_] => []
  | [] => []

/-- No group is left over alone, and the bits that fill up the last group are zero. -/
def closes : List Nat → Bool
  | _ :: _ :: _ :: _ :: rest => closes rest
  | [_, _, c] => c % 4 = 0
  | [_, b] => b % 16 = 0
  | [_] => false
  | [] => true

/-- The padding behind so many groups. -/
def padCount (n : Nat) : Nat := (4 - n % 4) % 4

def characters (vs : List Nat) : Bytes := vs.map base64Char

def padding (k : Nat) : Bytes := List.replicate k (ch '=')

theorem b64Encode_eq : ∀ x : Bytes,
    b64Encode x = characters (sextets x) ++ padding (padCount (sextets x).length)
  | [] => rfl
  | [_] => rfl
  | [_, _] => rfl
  | a :: b :: c :: rest => by
      have others := b64Encode_eq rest
      have count : padCount (sextets (a :: b :: c :: rest)).length =
          padCount (sextets rest).length := by
        show (4 - ((sextets rest).length + 4) % 4) % 4 = _
        rw [Nat.add_mod_right]
        rfl
      rw [count]
      unfold b64Encode
      dsimp only
      rw [others]
      rfl

theorem sextets_lt : ∀ (x : Bytes), ∀ v ∈ sextets x, v < 64
  | [] => fun v never => nomatch never
  | [a] => by
      have small := a.toNat_lt
      simp only [sextets, List.forall_mem_cons]
      exact ⟨by omega, by omega, fun v never => nomatch never⟩
  | [a, b] => by
      have small := a.toNat_lt
      have small' := b.toNat_lt
      simp only [sextets, List.forall_mem_cons]
      exact ⟨by omega, by omega, by omega, fun v never => nomatch never⟩
  | a :: b :: c :: rest => by
      have small := a.toNat_lt
      have small' := b.toNat_lt
      have small'' := c.toNat_lt
      simp only [sextets, List.forall_mem_cons]
      exact ⟨by omega, by omega, by omega, by omega, sextets_lt rest⟩

theorem ofNat_toNat_of_eq {a : UInt8} {n : Nat} (same : n = a.toNat) : UInt8.ofNat n = a := by
  rw [same, UInt8.ofNat_toNat]

/-- The bytes come back from their groups, which close. -/
theorem octets_sextets : ∀ x : Bytes, octets (sextets x) = x ∧ closes (sextets x) = true
  | [] => ⟨rfl, rfl⟩
  | [a] => by
      have small := a.toNat_lt
      simp only [sextets, octets, closes, decide_eq_true_eq]
      exact ⟨congrArg (· :: []) (ofNat_toNat_of_eq (by omega)), by omega⟩
  | [a, b] => by
      have small := a.toNat_lt
      have small' := b.toNat_lt
      simp only [sextets, octets, closes, decide_eq_true_eq]
      exact ⟨congrArg₂ (fun a b => [a, b]) (ofNat_toNat_of_eq (by omega))
        (ofNat_toNat_of_eq (by omega)), by omega⟩
  | a :: b :: c :: rest => by
      have small := a.toNat_lt
      have small' := b.toNat_lt
      have small'' := c.toNat_lt
      obtain ⟨others, closed⟩ := octets_sextets rest
      simp only [sextets, octets, closes, others]
      refine ⟨?_, closed⟩
      rw [ofNat_toNat_of_eq (a := a) (by omega), ofNat_toNat_of_eq (a := b) (by omega),
        ofNat_toNat_of_eq (a := c) (by omega)]

/-- Groups that close come back from their bytes. -/
theorem sextets_octets : ∀ vs : List Nat, (∀ v ∈ vs, v < 64) → closes vs = true →
    sextets (octets vs) = vs
  | [], _, _ => rfl
  | [_], _, never => nomatch never
  | [a, b], small, closed => by
      simp only [List.forall_mem_cons] at small
      obtain ⟨smallA, smallB, -⟩ := small
      have zero := of_decide_eq_true closed
      simp only [octets, sextets, UInt8.toNat_ofNat']
      rw [show (a * 4 + b / 16) % 2 ^ 8 = a * 4 + b / 16 by omega]
      exact congrArg₂ (fun a b => [a, b]) (by omega) (by omega)
  | [a, b, c], small, closed => by
      simp only [List.forall_mem_cons] at small
      obtain ⟨smallA, smallB, smallC, -⟩ := small
      have zero := of_decide_eq_true closed
      simp only [octets, sextets, UInt8.toNat_ofNat']
      rw [show (a * 4 + b / 16) % 2 ^ 8 = a * 4 + b / 16 by omega,
        show (b % 16 * 16 + c / 4) % 2 ^ 8 = b % 16 * 16 + c / 4 by omega]
      refine List.cons_eq_cons.mpr ⟨by omega, List.cons_eq_cons.mpr ⟨by omega, ?_⟩⟩
      exact congrArg (· :: []) (by omega)
  | a :: b :: c :: d :: rest, small, closed => by
      simp only [List.forall_mem_cons] at small
      obtain ⟨smallA, smallB, smallC, smallD, others⟩ := small
      have later := sextets_octets rest others closed
      simp only [octets, sextets, UInt8.toNat_ofNat', later]
      rw [show (a * 4 + b / 16) % 2 ^ 8 = a * 4 + b / 16 by omega,
        show (b % 16 * 16 + c / 4) % 2 ^ 8 = b % 16 * 16 + c / 4 by omega,
        show (c % 4 * 64 + d) % 2 ^ 8 = c % 4 * 64 + d by omega]
      refine List.cons_eq_cons.mpr ⟨by omega, List.cons_eq_cons.mpr ⟨by omega, ?_⟩⟩
      exact List.cons_eq_cons.mpr ⟨by omega, List.cons_eq_cons.mpr ⟨by omega, rfl⟩⟩

/-! ## What the decoder puts out -/

/-- The bytes put out for some characters, from the accumulator and its pending bits on. -/
def emitted : Nat → Nat → List Nat → Bytes
  | _, _, [] => []
  | acc, bits, v :: vs =>
      if 8 ≤ bits + 6 then
        UInt8.ofNat (pushBits acc v / 2 ^ (bits + 6 - 8) % 256) ::
          emitted (pushBits acc v) (bits + 6 - 8) vs
      else emitted (pushBits acc v) (bits + 6) vs

theorem emitted_eq_octets : ∀ (vs : List Nat) (acc : Nat), (∀ v ∈ vs, v < 64) →
    emitted acc 0 vs = octets vs
  | [], _, _ => rfl
  | [_], _, _ => rfl
  | [a, b], acc, small => by
      simp only [List.forall_mem_cons] at small
      obtain ⟨smallA, smallB, -⟩ := small
      have bytes := byte_of_pushBits acc smallA smallB
      simp only [emitted, octets, Nat.reduceAdd, Nat.reduceLeDiff, Nat.reduceSub, if_true, if_false,
        bytes.1]
  | [a, b, c], acc, small => by
      simp only [List.forall_mem_cons] at small
      obtain ⟨smallA, smallB, smallC, -⟩ := small
      have bytes := byte_of_pushBits acc smallA smallB
      have bytes' := byte_of_pushBits (pushBits acc a) smallB smallC
      simp only [emitted, octets, Nat.reduceAdd, Nat.reduceLeDiff, Nat.reduceSub, if_true, if_false,
        bytes.1, bytes'.2.1]
  | a :: b :: c :: d :: rest, acc, small => by
      simp only [List.forall_mem_cons] at small
      obtain ⟨smallA, smallB, smallC, smallD, others⟩ := small
      have bytes := byte_of_pushBits acc smallA smallB
      have bytes' := byte_of_pushBits (pushBits acc a) smallB smallC
      have bytes'' := byte_of_pushBits (pushBits (pushBits acc a) b) smallC smallD
      have later := emitted_eq_octets rest (pushBits (pushBits (pushBits (pushBits acc a) b) c) d)
        others
      simp only [emitted, octets, Nat.reduceAdd, Nat.reduceLeDiff, Nat.reduceSub, if_true, if_false,
        bytes.1, bytes'.2.1, bytes''.2.2, later]

section Decoder

variable {outCap : Nat}

/-- White space makes no difference. -/
theorem b64DecodeFrom_strip : ∀ (s : Bytes) (acc bits : Nat) (pad : Bool) (out : Bytes),
    b64DecodeFrom outCap acc bits pad out s =
      b64DecodeFrom outCap acc bits pad out (s.filter fun c => !isB64Space c) := by
  intro s
  induction s with
  | nil => exact fun acc bits pad out => rfl
  | cons c rest inductionHypothesis =>
      intro acc bits pad out
      cases space : isB64Space c with
      | true =>
          rw [List.filter_cons_of_neg (by simp [space]), ← inductionHypothesis]
          cases pad with
          | true => simp [b64DecodeFrom, space]
          | false => simp [b64DecodeFrom, space]
      | false =>
          rw [List.filter_cons_of_pos (by simp [space])]
          cases pad with
          | true =>
              unfold b64DecodeFrom
              rw [inductionHypothesis acc bits true out]
          | false =>
              unfold b64DecodeFrom
              simp only [inductionHypothesis _ _ _ _]

/-- Characters that there is room for. -/
theorem b64DecodeFrom_characters : ∀ (vs : List Nat) (acc bits : Nat) (out tail : Bytes),
    (∀ v ∈ vs, v < 64) → out.length * 8 + bits + 6 * vs.length < 8 * (outCap + 1) →
      ∃ acc' bits', b64DecodeFrom outCap acc bits false out (characters vs ++ tail) =
        b64DecodeFrom outCap acc' bits' false (out ++ emitted acc bits vs) tail := by
  intro vs
  induction vs with
  | nil => exact fun acc bits out tail _ _ => ⟨acc, bits, by rw [emitted, List.append_nil]; rfl⟩
  | cons v vs inductionHypothesis =>
      intro acc bits out tail small room
      obtain ⟨first, others⟩ := List.forall_mem_cons.mp small
      rw [List.length_cons] at room
      show ∃ acc' bits', b64DecodeFrom outCap acc bits false out
        (base64Char v :: (characters vs ++ tail)) = _
      unfold emitted
      by_cases enough : 8 ≤ bits + 6
      · obtain ⟨acc', bits', later⟩ := inductionHypothesis (pushBits acc v) (bits + 6 - 8)
          (out ++ [UInt8.ofNat (pushBits acc v / 2 ^ (bits + 6 - 8) % 256)]) tail others
          (by rw [List.length_append, List.length_singleton]; omega)
        rw [b64DecodeFrom_emit first enough (by omega), if_pos enough, later, List.append_assoc]
        exact ⟨acc', bits', rfl⟩
      · obtain ⟨acc', bits', later⟩ := inductionHypothesis (pushBits acc v) (bits + 6) out tail
          others (by omega)
        rw [b64DecodeFrom_collect first (Nat.not_le.mp enough), if_neg enough, later]
        exact ⟨acc', bits', rfl⟩

/-- Characters that there is no room for. -/
theorem b64DecodeFrom_overflow : ∀ (vs : List Nat) (acc bits : Nat) (out : Bytes),
    (∀ v ∈ vs, v < 64) → out.length ≤ outCap → bits < 8 →
      8 * (outCap + 1) ≤ out.length * 8 + bits + 6 * vs.length →
        b64DecodeFrom outCap acc bits false out (characters vs) = .error (.of .eOverflow) := by
  intro vs
  induction vs with
  | nil =>
      intro acc bits out _ room few past
      rw [List.length_nil] at past
      omega
  | cons v vs inductionHypothesis =>
      intro acc bits out small room few past
      obtain ⟨first, others⟩ := List.forall_mem_cons.mp small
      rw [List.length_cons] at past
      show b64DecodeFrom outCap acc bits false out (base64Char v :: characters vs) = _
      by_cases enough : 8 ≤ bits + 6
      · by_cases fits : out.length < outCap
        · rw [b64DecodeFrom_emit first enough fits]
          refine inductionHypothesis _ _ _ others ?_ (by omega) ?_
          · rw [List.length_append, List.length_singleton]
            exact fits
          · rw [List.length_append, List.length_singleton]
            omega
        · obtain ⟨decoded, ink, noPad⟩ := decodeChar_base64Char v first
          rw [b64DecodeFrom, ink, decoded, if_neg Bool.false_ne_true, if_neg noPad]
          dsimp only
          rw [if_pos enough, if_pos (by omega)]
      · rw [b64DecodeFrom_collect first (Nat.not_le.mp enough)]
        exact inductionHypothesis _ _ _ others room (by omega) (by omega)

theorem b64DecodeFrom_padding (acc bits : Nat) (pad : Bool) (out : Bytes) (k : Nat) :
    b64DecodeFrom outCap acc bits pad out (padding k) = .ok out := by
  induction k generalizing pad with
  | zero => cases pad <;> rfl
  | succ k inductionHypothesis =>
      show b64DecodeFrom outCap acc bits pad out (ch '=' :: padding k) = _
      have ink : isB64Space (ch '=') = false := rfl
      cases pad with
      | true =>
          rw [b64DecodeFrom, if_pos (by simp)]
          exact inductionHypothesis true
      | false =>
          rw [b64DecodeFrom, ink, if_neg Bool.false_ne_true, if_pos rfl]
          exact inductionHypothesis true

end Decoder

/-! ## Texts -/

/-- A text without its white space. -/
def strip (s : Bytes) : Bytes := s.filter fun c => !isB64Space c

def withoutPadding (s : Bytes) : Bytes := s.filter (· ≠ ch '=')

/-- A text is an encoding, with or without its padding, with white space anywhere. -/
def Encodes (s x : Bytes) : Prop :=
  strip s = b64Encode x ∨ strip s = withoutPadding (b64Encode x)

/-- What the decoder promises of a text and a buffer of the documented size. -/
structure MeetsContract (s : Bytes) : Prop where
  accepts : ∀ x, Encodes s x → b64Decode s (b64DecodedSize s.length + 1) = .ok x
  refuses : (∀ x, ¬Encodes s x) →
    b64Decode s (b64DecodedSize s.length + 1) = .error (.of .eProtoParse)

/-- The groups of six bits that the characters of a text stand for. -/
def symbols (s : Bytes) : List Nat := s.filterMap decodeChar

def pads (s : Bytes) : Nat := s.count (ch '=')

/-- A text has a character that is none of base64, or one other than padding behind padding. -/
def foreign (s : Bytes) : Bool :=
  s.any (fun c => !isB64Space c && c ≠ ch '=' && (decodeChar c).isNone) ||
    (s.dropWhile (· ≠ ch '=')).any fun c => !isB64Space c && c ≠ ch '='

theorem decodeChar_eq_some {c : UInt8} {v : Nat} (decoded : decodeChar c = some v) :
    v < 64 ∧ base64Char v = c := by
  have all : ∀ n < 256, ∀ v ∈ decodeChar (UInt8.ofNat n), v < 64 ∧ base64Char v = UInt8.ofNat n := by
    decide +kernel
  have here := all c.toNat c.toNat_lt
  rw [UInt8.ofNat_toNat] at here
  exact here v decoded

theorem decodeChar_space {c : UInt8} (space : isB64Space c = true) : decodeChar c = none := by
  unfold isB64Space at space
  simp only [Bool.or_eq_true, beq_iff_eq] at space
  rcases space with ((rfl | rfl) | rfl) | rfl <;> rfl

theorem dropWhile_strip (s : Bytes) :
    (strip s).dropWhile (· ≠ ch '=') = strip (s.dropWhile (· ≠ ch '=')) := by
  induction s with
  | nil => rfl
  | cons c rest inductionHypothesis =>
      unfold strip at inductionHypothesis ⊢
      by_cases pad : c = ch '='
      · rw [pad, List.filter_cons_of_pos rfl, List.dropWhile_cons_of_neg (by simp),
          List.dropWhile_cons_of_neg (by simp), List.filter_cons_of_pos rfl]
      · rw [List.dropWhile_cons_of_pos (by simpa using pad)]
        cases space : isB64Space c with
        | true => rw [List.filter_cons_of_neg (by simp [space]), inductionHypothesis]
        | false =>
            rw [List.filter_cons_of_pos (by simp [space]),
              List.dropWhile_cons_of_pos (by simpa using pad), inductionHypothesis]

theorem foreign_strip (s : Bytes) : foreign (strip s) = foreign s := by
  unfold foreign
  rw [dropWhile_strip]
  unfold strip
  rw [List.any_filter, List.any_filter]
  simp only [← Bool.and_assoc, Bool.and_self]

theorem symbols_strip (s : Bytes) : symbols (strip s) = symbols s := by
  unfold symbols strip
  rw [List.filterMap_filter]
  refine congrArg (s.filterMap ·) (funext fun c => ?_)
  cases space : isB64Space c with
  | true => simp [decodeChar_space space]
  | false => rfl

theorem pads_strip (s : Bytes) : pads (strip s) = pads s := List.count_filter rfl

/-! ## The shape of a text -/

/-- What the decoder refuses, where it stands. -/
inductive Refused : Bytes → Prop
  | stray {c : UInt8} (rest : Bytes) (ink : isB64Space c = false) (noPad : c ≠ ch '=')
      (unknown : decodeChar c = none) : Refused (c :: rest)
  | behind {rest : Bytes} {c : UInt8} (member : c ∈ rest) (ink : isB64Space c = false)
      (noPad : c ≠ ch '=') : Refused (ch '=' :: rest)

/-- A text without white space is characters, and behind them padding or what is refused. -/
theorem shape : ∀ {t : Bytes}, (∀ c ∈ t, isB64Space c = false) → ∃ vs tail,
    (∀ v ∈ vs, v < 64) ∧ t = characters vs ++ tail ∧ ((∃ k, tail = padding k) ∨ Refused tail) := by
  intro t
  induction t with
  | nil => exact fun _ => ⟨[], [], fun v never => (nomatch never), rfl, .inl ⟨0, rfl⟩⟩
  | cons c rest inductionHypothesis =>
      intro ink
      obtain ⟨first, others⟩ := List.forall_mem_cons.mp ink
      cases decoded : decodeChar c with
      | some v =>
          obtain ⟨small, same⟩ := decodeChar_eq_some decoded
          obtain ⟨vs, tail, smaller, rfl, which⟩ := inductionHypothesis others
          exact ⟨v :: vs, tail, List.forall_mem_cons.mpr ⟨small, smaller⟩, same ▸ rfl, which⟩
      | none =>
          refine ⟨[], c :: rest, fun v never => (nomatch never), rfl, ?_⟩
          by_cases pad : c = ch '='
          · by_cases all : ∀ d ∈ rest, d = ch '='
            · refine .inl ⟨rest.length + 1, ?_⟩
              rw [pad, List.eq_replicate_of_mem all]
              unfold padding
              rw [List.length_replicate]
              rfl
            · obtain ⟨d, member, other⟩ : ∃ d ∈ rest, d ≠ ch '=' := by simpa using all
              exact .inr (pad ▸ .behind member (others d member) other)
          · exact .inr (.stray rest first pad decoded)

theorem b64DecodeFrom_refused {outCap acc bits : Nat} {out tail : Bytes} (refused : Refused tail) :
    b64DecodeFrom outCap acc bits false out tail = .error (.of .eProtoParse) := by
  cases refused with
  | stray rest ink noPad unknown =>
      rw [b64DecodeFrom, ink, unknown, if_neg Bool.false_ne_true, if_neg noPad]
  | @behind rest c member ink noPad =>
      have later : b64DecodeFrom outCap acc bits true out rest = .error (.of .eProtoParse) := by
        induction rest with
        | nil => exact absurd member List.not_mem_nil
        | cons d rest inductionHypothesis =>
            rw [b64DecodeFrom]
            split
            · next passed =>
                rcases List.mem_cons.mp member with rfl | later
                · simp [ink, noPad] at passed
                · exact inductionHypothesis later
            · rfl
      have ink : isB64Space (ch '=') = false := rfl
      rw [b64DecodeFrom, ink, if_neg Bool.false_ne_true, if_pos rfl, later]

theorem foreign_of_refused {tail : Bytes} (refused : Refused tail) (vs : List Nat)
    (small : ∀ v ∈ vs, v < 64) : foreign (characters vs ++ tail) = true := by
  unfold foreign
  cases refused with
  | stray rest ink noPad unknown => simp [ink, noPad, unknown]
  | @behind rest c member ink noPad =>
      have reached : (characters vs ++ ch '=' :: rest).dropWhile (· ≠ ch '=') = ch '=' :: rest := by
        rw [List.dropWhile_append_of_pos, List.dropWhile_cons_of_neg (by simp)]
        intro d member
        obtain ⟨v, there, rfl⟩ := List.mem_map.mp member
        exact decide_eq_true (decodeChar_base64Char v (small v there)).2.2
      rw [reached, Bool.or_eq_true]
      exact .inr (List.any_eq_true.mpr ⟨c, List.mem_cons_of_mem _ member, by simp [ink, noPad]⟩)

section Padded

variable {vs : List Nat} (small : ∀ v ∈ vs, v < 64) (k : Nat)

include small

theorem foreign_padded : foreign (characters vs ++ padding k) = false := by
  have plain : ∀ c ∈ characters vs ++ padding k, (decodeChar c).isSome ∨ c = ch '=' := by
    intro c member
    rcases List.mem_append.mp member with front | back
    · obtain ⟨v, there, rfl⟩ := List.mem_map.mp front
      exact .inl (by rw [(decodeChar_base64Char v (small v there)).1]; rfl)
    · exact .inr (List.eq_of_mem_replicate back)
  have reached : (characters vs ++ padding k).dropWhile (· ≠ ch '=') = padding k := by
    rw [List.dropWhile_append_of_pos]
    · cases k with
      | zero => rfl
      | succ k => exact List.dropWhile_cons_of_neg (by simp)
    · intro d member
      obtain ⟨v, there, rfl⟩ := List.mem_map.mp member
      exact decide_eq_true (decodeChar_base64Char v (small v there)).2.2
  unfold foreign
  rw [reached, Bool.or_eq_false_iff]
  refine ⟨List.any_eq_false.mpr fun c member => ?_, List.any_eq_false.mpr fun c member => ?_⟩
  · rcases plain c member with known | pad
    · simp [Option.isSome_iff_ne_none.mp known]
    · simp [pad]
  · simp [List.eq_of_mem_replicate member]

theorem symbols_padded : symbols (characters vs ++ padding k) = vs := by
  have front : ∀ vs : List Nat, (∀ v ∈ vs, v < 64) →
      (characters vs).filterMap decodeChar = vs := by
    intro vs
    induction vs with
    | nil => exact fun _ => rfl
    | cons v vs inductionHypothesis =>
        intro small
        obtain ⟨first, others⟩ := List.forall_mem_cons.mp small
        exact (List.filterMap_cons_some (decodeChar_base64Char v first).1).trans
          (congrArg (v :: ·) (inductionHypothesis others))
  have back : (padding k).filterMap decodeChar = [] :=
    List.filterMap_eq_nil_iff.mpr fun c member => List.eq_of_mem_replicate member ▸ rfl
  unfold symbols
  rw [List.filterMap_append, front vs small, back, List.append_nil]

theorem pads_padded : pads (characters vs ++ padding k) = k := by
  have none_ : (characters vs).count (ch '=') = 0 := List.count_eq_zero.mpr fun member => by
    obtain ⟨v, there, same⟩ := List.mem_map.mp member
    exact (decodeChar_base64Char v (small v there)).2.2 same
  unfold pads padding
  rw [List.count_append, none_, List.count_replicate_self, Nat.zero_add]

theorem withoutPadding_padded : withoutPadding (characters vs ++ padding k) = characters vs := by
  unfold withoutPadding
  rw [List.filter_append, List.filter_eq_self.mpr, List.filter_eq_nil_iff.mpr, List.append_nil]
  · intro c member
    simp [List.eq_of_mem_replicate member]
  · intro c member
    obtain ⟨v, there, rfl⟩ := List.mem_map.mp member
    exact decide_eq_true (decodeChar_base64Char v (small v there)).2.2

end Padded

/-- What a text of characters and padding encodes. -/
theorem encodes_iff {s : Bytes} {vs : List Nat} {k : Nat} (small : ∀ v ∈ vs, v < 64)
    (text : strip s = characters vs ++ padding k) (x : Bytes) :
    Encodes s x ↔ vs = sextets x ∧ (k = 0 ∨ k = padCount vs.length) := by
  have same {ws : List Nat} {n : Nat} (smallW : ∀ v ∈ ws, v < 64) :
      characters vs ++ padding k = characters ws ++ padding n ↔ vs = ws ∧ k = n := by
    constructor
    · intro equal
      exact ⟨(symbols_padded small k).symm.trans ((congrArg symbols equal).trans
          (symbols_padded smallW n)),
        (pads_padded small k).symm.trans ((congrArg pads equal).trans (pads_padded smallW n))⟩
    · rintro ⟨rfl, rfl⟩
      rfl
  have smallX := sextets_lt x
  have bare : characters (sextets x) = characters (sextets x) ++ padding 0 :=
    (List.append_nil _).symm
  unfold Encodes
  rw [text, b64Encode_eq, withoutPadding_padded smallX, same smallX, bare, same smallX]
  constructor
  · rintro (⟨rfl, padded⟩ | ⟨rfl, unpadded⟩)
    · exact ⟨rfl, .inr padded⟩
    · exact ⟨rfl, .inl unpadded⟩
  · rintro ⟨rfl, unpadded | padded⟩
    · exact .inr ⟨rfl, unpadded⟩
    · exact .inl ⟨rfl, padded⟩

/-- Where the decoder does what it promises. -/
def KeepsContract (s : Bytes) : Prop :=
  foreign s = true ∨ (closes (symbols s) = true ∧
    (pads s = 0 ∨ pads s = padCount (symbols s).length) ∧
    ¬((symbols s).length = s.length ∧ s.length % 4 = 3))

/-- **Where base64 is decoded as promised.**  A text with a foreign character is refused; any
other text is treated as promised exactly if its last group closes, the padding is none or the
right one, and it is not characters only, three of them behind whole groups. -/
theorem b64Decode_contract_iff (s : Bytes) : MeetsContract s ↔ KeepsContract s := by
  have ink : ∀ c ∈ strip s, isB64Space c = false := by
    intro c member
    simpa using (List.mem_filter.mp member).2
  have length : (strip s).length ≤ s.length := List.length_filter_le _ _
  obtain ⟨vs, tail, small, text, which⟩ := shape ink
  have total : (strip s).length = vs.length + tail.length := by
    rw [text, List.length_append]
    exact congrArg (· + tail.length) (List.length_map _)
  have decode : b64Decode s (b64DecodedSize s.length + 1) =
      b64DecodeFrom (b64DecodedSize s.length + 1) 0 0 false [] (characters vs ++ tail) := by
    rw [← text]
    exact b64DecodeFrom_strip s 0 0 false []
  have enough (few : vs.length < s.length ∨ (vs.length = s.length ∧ s.length % 4 ≠ 3)) :
      List.length ([] : Bytes) * 8 + 0 + 6 * vs.length < 8 * (b64DecodedSize s.length + 1 + 1) := by
    unfold b64DecodedSize
    rw [List.length_nil]
    omega
  unfold KeepsContract
  rw [← foreign_strip, ← symbols_strip, ← pads_strip, text]
  rcases which with ⟨k, rfl⟩ | refused
  · have encodes := encodes_iff small text
    rw [foreign_padded small, symbols_padded small, pads_padded small]
    by_cases past : vs.length = s.length ∧ s.length % 4 = 3
    · -- characters only, which the buffer is one byte short for
      have none_ : k = 0 := by
        have padLength : (padding k).length = k := List.length_replicate
        omega
      have overflows : b64Decode s (b64DecodedSize s.length + 1) = .error (.of .eOverflow) := by
        rw [decode, none_, show padding 0 = [] from rfl, List.append_nil]
        refine b64DecodeFrom_overflow vs 0 0 [] small (Nat.zero_le _) (by decide) ?_
        unfold b64DecodedSize
        rw [List.length_nil]
        omega
      refine ⟨fun meets => ?_, fun keeps => ?_⟩
      · by_cases some_ : ∃ x, Encodes s x
        · obtain ⟨x, encoded⟩ := some_
          have accepted := meets.accepts x encoded
          rw [overflows] at accepted
          cases accepted
        · have refused := meets.refuses (not_exists.mp some_)
          rw [overflows] at refused
          cases refused
      · rcases keeps with never | ⟨-, -, notOver⟩
        · cases never
        · exact absurd past notOver
    · obtain ⟨acc', bits', emits⟩ := b64DecodeFrom_characters vs 0 0 [] (padding k) small
        (enough (by omega))
      have decoded : b64Decode s (b64DecodedSize s.length + 1) = .ok (octets vs) := by
        rw [decode, emits, b64DecodeFrom_padding, List.nil_append, emitted_eq_octets vs 0 small]
      constructor
      · intro meets
        obtain ⟨x, encoded⟩ : ∃ x, Encodes s x := by
          by_contra none_
          have refused := meets.refuses (not_exists.mp none_)
          rw [decoded] at refused
          cases refused
        obtain ⟨rfl, padded⟩ := (encodes x).mp encoded
        exact .inr ⟨(octets_sextets x).2, padded, past⟩
      · rintro (never | ⟨closed, padded, -⟩)
        · cases never
        · refine ⟨fun x encoded => ?_, fun none_ => ?_⟩
          · rw [decoded, ((encodes x).mp encoded).1, (octets_sextets x).1]
          · exact absurd ((encodes (octets vs)).mpr ⟨(sextets_octets vs small closed).symm, padded⟩)
              (none_ _)
  · -- what is refused stands behind fewer characters than the text has
    have some_ : 0 < tail.length := by
      cases refused with
      | stray => exact Nat.succ_pos _
      | behind => exact Nat.succ_pos _
    obtain ⟨acc', bits', emits⟩ := b64DecodeFrom_characters vs 0 0 [] tail small
      (enough (by omega))
    have foreign_ := foreign_of_refused refused vs small
    refine ⟨fun _ => .inl foreign_, fun _ => ⟨fun x encoded => ?_, fun _ => ?_⟩⟩
    · have plain : foreign (strip s) = false := by
        rcases encoded with padded | unpadded
        · rw [padded, b64Encode_eq]
          exact foreign_padded (sextets_lt x) _
        · rw [unpadded, b64Encode_eq, withoutPadding_padded (sextets_lt x), ← List.append_nil
            (characters _)]
          exact foreign_padded (sextets_lt x) 0
      rw [text, foreign_] at plain
      cases plain
    · rw [decode, emits]
      exact b64DecodeFrom_refused refused

instance (s : Bytes) : Decidable (KeepsContract s) :=
  inferInstanceAs (Decidable (_ ∨ _))

/-- Three characters that the buffer is too short for, and one that stands for nothing. -/
theorem b64Decode_slips :
    Encodes (str "Zm8") (str "fo") ∧
      b64Decode (str "Zm8") (b64DecodedSize 3 + 1) = .error (.of .eOverflow) ∧
      ¬MeetsContract (str "Zm8") ∧
      b64Decode (str "A") (b64DecodedSize 1 + 1) = .ok [] ∧ ¬MeetsContract (str "A") := by
  have short : b64Decode (str "Zm8") (b64DecodedSize 3 + 1) = .error (.of .eOverflow) := by decide
  have lone : b64Decode (str "A") (b64DecodedSize 1 + 1) = .ok [] := by decide
  have encodes : Encodes (str "Zm8") (str "fo") := .inr (by decide)
  refine ⟨encodes, short, fun meets => ?_, lone, fun meets => ?_⟩
  · have accepted := meets.accepts _ encodes
    cases short.symm.trans accepted
  · have none_ : ∀ x, ¬Encodes (str "A") x := by
      intro x encoded
      have groups := (@encodes_iff (str "A") [0] 0 (by decide) (by decide) x).mp encoded
      have closed := (octets_sextets x).2
      rw [← groups.1] at closed
      cases closed
    cases lone.symm.trans (meets.refuses none_)

end Opencodepp.Util
