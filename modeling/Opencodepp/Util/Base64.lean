import Opencodepp.Core.Error
import Opencodepp.Library.ByteString

/-!
# Base64

The encoder is padded; the decoder collects six bits at a time and puts out a byte whenever
eight have come together.  It checks the room in the buffer of its caller.
`b64Decode_b64Encode` is the round trip into every buffer that is large enough, by induction on
the groups of three bytes: after each group no bits are left over.
-/

set_option autoImplicit false

namespace Opencodepp.Util

open Opencodepp.Core
open Opencodepp.Library

/-- The alphabet of RFC 4648. -/
def base64Alphabet : Bytes :=
  str "ABCDEFGHIJKLMNOPQRSTUVWXYZabcdefghijklmnopqrstuvwxyz0123456789+/"

def base64Char (sextet : Nat) : UInt8 := base64Alphabet.getD sextet 0

/-- The padded encoding of a byte string. -/
def b64Encode : Bytes → Bytes
  | a :: b :: c :: rest =>
      let v := a.toNat * 65536 + b.toNat * 256 + c.toNat
      base64Char (v / 262144) :: base64Char (v / 4096 % 64) :: base64Char (v / 64 % 64) ::
        base64Char (v % 64) :: b64Encode rest
  | [a] =>
      let v := a.toNat * 65536
      [base64Char (v / 262144), base64Char (v / 4096 % 64), ch '=', ch '=']
  | [a, b] =>
      let v := a.toNat * 65536 + b.toNat * 256
      [base64Char (v / 262144), base64Char (v / 4096 % 64), base64Char (v / 64 % 64), ch '=']
  | [] => []

/-- The room the encoding of `n` bytes takes. -/
def b64EncodedSize (n : Nat) : Nat := 4 * ((n + 2) / 3)

/-- The room for the bytes that `n` characters decode to. -/
def b64DecodedSize (n : Nat) : Nat := n / 4 * 3

theorem length_b64Encode : ∀ data : Bytes, (b64Encode data).length = b64EncodedSize data.length
  | [] => rfl
  | [_] => by simp [b64Encode, b64EncodedSize]
  | [_, _] => by simp [b64Encode, b64EncodedSize]
  | _ :: _ :: _ :: rest => by
      have others := length_b64Encode rest
      unfold b64EncodedSize at others ⊢
      simp only [b64Encode, List.length_cons, others]
      omega

/-! ## Decoding -/

/-- The six bits of a character of the alphabet. -/
def decodeChar (c : UInt8) : Option Nat :=
  if ch 'A' ≤ c ∧ c ≤ ch 'Z' then some (c.toNat - (ch 'A').toNat)
  else if ch 'a' ≤ c ∧ c ≤ ch 'z' then some (c.toNat - (ch 'a').toNat + 26)
  else if ch '0' ≤ c ∧ c ≤ ch '9' then some (c.toNat - (ch '0').toNat + 52)
  else if c = ch '+' then some 62
  else if c = ch '/' then some 63
  else none

/-- The white space the decoder passes over. -/
def isB64Space (c : UInt8) : Bool := c == 0x0a || c == 0x0d || c == 0x20 || c == 0x09

/-- The decoder on the rest of its input: the accumulator with the number of its bits that are
not put out yet, and whether padding has been seen. -/
def b64DecodeFrom (outCap : Nat) : (acc accBits : Nat) → (sawPad : Bool) → (out : Bytes) →
    Bytes → Except Failure Bytes
  | _, _, _, out, [] => .ok out
  | acc, accBits, true, out, c :: rest =>
      if c = ch '=' || isB64Space c then b64DecodeFrom outCap acc accBits true out rest
      else .error (.of .eProtoParse)
  | acc, accBits, false, out, c :: rest =>
      if isB64Space c then b64DecodeFrom outCap acc accBits false out rest
      else if c = ch '=' then b64DecodeFrom outCap acc accBits true out rest
      else
        match decodeChar c with
        | none => .error (.of .eProtoParse)
        | some v =>
            let acc := ((acc <<< 6) % 2 ^ 32) ||| v
            if 8 ≤ accBits + 6 then
              let accBits := accBits + 6 - 8
              let byte := UInt8.ofNat ((acc >>> accBits) &&& 0xff)
              if outCap < out.length + 1 then .error (.of .eOverflow)
              else b64DecodeFrom outCap acc accBits false (out ++ [byte]) rest
            else b64DecodeFrom outCap acc (accBits + 6) false out rest

/-- Decode into a buffer. -/
def b64Decode (input : Bytes) (outCap : Nat) : Except Failure Bytes :=
  b64DecodeFrom outCap 0 0 false [] input

/-! ## The round trip -/

/-- A character of the alphabet stands for its place and is neither white space nor padding. -/
theorem decodeChar_base64Char : ∀ v < 64, decodeChar (base64Char v) = some v ∧
    isB64Space (base64Char v) = false ∧ base64Char v ≠ ch '=' := by
  decide +kernel

/-- The accumulator after six more bits. -/
def pushBits (acc v : Nat) : Nat := ((acc <<< 6) % 2 ^ 32) ||| v

theorem pushBits_eq {v : Nat} (small : v < 64) (acc : Nat) :
    pushBits acc v = acc * 64 % 2 ^ 32 + v := by
  have shifted : acc * 64 % 2 ^ 32 = (acc * 64 % 2 ^ 32 / 64) <<< 6 := by
    rw [Nat.shiftLeft_eq]
    omega
  unfold pushBits
  rw [Nat.shiftLeft_eq, show 2 ^ 6 = 64 from rfl, shifted,
    ← Nat.shiftLeft_add_eq_or_of_lt (show v < 2 ^ 6 from small)]

/-- Six bits that do not fill a byte. -/
theorem b64DecodeFrom_collect {outCap acc accBits v : Nat} {out : Bytes} (small : v < 64)
    (few : accBits + 6 < 8) (rest : Bytes) :
    b64DecodeFrom outCap acc accBits false out (base64Char v :: rest) =
      b64DecodeFrom outCap (pushBits acc v) (accBits + 6) false out rest := by
  obtain ⟨decoded, ink, noPad⟩ := decodeChar_base64Char v small
  rw [b64DecodeFrom, ink, decoded, if_neg Bool.false_ne_true, if_neg noPad]
  dsimp only
  rw [if_neg (Nat.not_le.mpr few)]
  rfl

/-- Six bits that fill a byte for which there is room. -/
theorem b64DecodeFrom_emit {outCap acc accBits v : Nat} {out : Bytes} (small : v < 64)
    (enough : 8 ≤ accBits + 6) (room : out.length < outCap) (rest : Bytes) :
    b64DecodeFrom outCap acc accBits false out (base64Char v :: rest) =
      b64DecodeFrom outCap (pushBits acc v) (accBits + 6 - 8) false
        (out ++ [UInt8.ofNat (pushBits acc v / 2 ^ (accBits + 6 - 8) % 256)]) rest := by
  obtain ⟨decoded, ink, noPad⟩ := decodeChar_base64Char v small
  have byte : (pushBits acc v >>> (accBits + 6 - 8)) &&& 0xff =
      pushBits acc v / 2 ^ (accBits + 6 - 8) % 256 := by
    rw [Nat.shiftRight_eq_div_pow]
    exact Nat.and_two_pow_sub_one_eq_mod _ 8
  rw [b64DecodeFrom, ink, decoded, if_neg Bool.false_ne_true, if_neg noPad]
  dsimp only
  rw [if_pos enough, if_neg (Nat.not_lt.mpr room), ← byte]
  rfl

/-- Padding ends the input. -/
theorem b64DecodeFrom_pad (outCap acc accBits : Nat) (out : Bytes) :
    b64DecodeFrom outCap acc accBits false out [ch '=', ch '='] = .ok out ∧
      b64DecodeFrom outCap acc accBits false out [ch '='] = .ok out := ⟨rfl, rfl⟩

/-- The three bytes of four characters, whatever was in the accumulator before. -/
theorem byte_of_pushBits {u v : Nat} (acc : Nat) (first : u < 64) (second : v < 64) :
    pushBits (pushBits acc u) v / 2 ^ 4 % 256 = u * 4 + v / 16 ∧
      pushBits (pushBits acc u) v / 2 ^ 2 % 256 = u % 16 * 16 + v / 4 ∧
      pushBits (pushBits acc u) v / 2 ^ 0 % 256 = u % 4 * 64 + v := by
  rw [pushBits_eq second, pushBits_eq first]
  omega

/-- **The bytes are decoded group by group**: between groups no bits are pending. -/
theorem b64DecodeFrom_b64Encode (outCap : Nat) : ∀ (data : Bytes) (acc : Nat) (out : Bytes),
    out.length + data.length ≤ outCap →
      b64DecodeFrom outCap acc 0 false out (b64Encode data) = .ok (out ++ data)
  | [], _, out, _ => congrArg Except.ok (List.append_nil out).symm
  | [a], acc, out, room => by
      have small := a.toNat_lt
      have fits : out.length < outCap := room
      have high : a.toNat * 65536 / 262144 < 64 := by omega
      have low : a.toNat * 65536 / 4096 % 64 < 64 := by omega
      have byte : a.toNat * 65536 / 262144 * 4 + a.toNat * 65536 / 4096 % 64 / 16 = a.toNat := by
        omega
      unfold b64Encode
      dsimp only
      rw [b64DecodeFrom_collect high (by decide), b64DecodeFrom_emit low (by decide) fits]
      dsimp only [Nat.reduceAdd, Nat.reduceSub]
      rw [(byte_of_pushBits acc high low).1, byte, UInt8.ofNat_toNat]
      exact (b64DecodeFrom_pad ..).1
  | [a, b], acc, out, room => by
      have small := a.toNat_lt
      have small' := b.toNat_lt
      have fits : out.length + 2 ≤ outCap := room
      generalize value : a.toNat * 65536 + b.toNat * 256 = v
      have one : v / 262144 < 64 := by omega
      have two : v / 4096 % 64 < 64 := by omega
      have three : v / 64 % 64 < 64 := by omega
      have byte : v / 262144 * 4 + v / 4096 % 64 / 16 = a.toNat := by omega
      have byte' : v / 4096 % 64 % 16 * 16 + v / 64 % 64 / 4 = b.toNat := by omega
      unfold b64Encode
      dsimp only
      rw [value, b64DecodeFrom_collect one (by decide),
        b64DecodeFrom_emit two (by decide) (by omega),
        b64DecodeFrom_emit three (by decide) (by simp; omega)]
      dsimp only [Nat.reduceAdd, Nat.reduceSub]
      rw [(byte_of_pushBits acc one two).1, (byte_of_pushBits _ two three).2.1, byte, byte',
        UInt8.ofNat_toNat, UInt8.ofNat_toNat, List.append_assoc]
      exact (b64DecodeFrom_pad ..).2
  | a :: b :: c :: rest, acc, out, room => by
      have small := a.toNat_lt
      have small' := b.toNat_lt
      have small'' := c.toNat_lt
      have fits : out.length + (rest.length + 3) ≤ outCap := room
      generalize value : a.toNat * 65536 + b.toNat * 256 + c.toNat = v
      have one : v / 262144 < 64 := by omega
      have two : v / 4096 % 64 < 64 := by omega
      have three : v / 64 % 64 < 64 := by omega
      have four : v % 64 < 64 := by omega
      have byte : v / 262144 * 4 + v / 4096 % 64 / 16 = a.toNat := by omega
      have byte' : v / 4096 % 64 % 16 * 16 + v / 64 % 64 / 4 = b.toNat := by omega
      have byte'' : v / 64 % 64 % 4 * 64 + v % 64 = c.toNat := by omega
      unfold b64Encode
      dsimp only
      rw [value, b64DecodeFrom_collect one (by decide),
        b64DecodeFrom_emit two (by decide) (by omega),
        b64DecodeFrom_emit three (by decide) (by simp; omega),
        b64DecodeFrom_emit four (by decide) (by simp; omega)]
      dsimp only [Nat.reduceAdd, Nat.reduceSub]
      rw [(byte_of_pushBits acc one two).1, (byte_of_pushBits _ two three).2.1,
        (byte_of_pushBits _ three four).2.2, byte, byte', byte'', UInt8.ofNat_toNat,
        UInt8.ofNat_toNat, UInt8.ofNat_toNat,
        b64DecodeFrom_b64Encode outCap rest _ _ (by simp; omega)]
      simp

/-- **Base64 round trip.**  What was encoded is decoded into every buffer it fits in. -/
theorem b64Decode_b64Encode {data : Bytes} {outCap : Nat} (room : data.length ≤ outCap) :
    b64Decode (b64Encode data) outCap = .ok data :=
  b64DecodeFrom_b64Encode outCap data 0 [] (by simpa using room)

/-- The buffer a reader takes for an encoding is large enough. -/
theorem length_le_b64DecodedSize (data : Bytes) :
    data.length ≤ b64DecodedSize (b64Encode data).length := by
  rw [length_b64Encode]
  unfold b64DecodedSize b64EncodedSize
  omega

theorem b64Encode_ne_nil {data : Bytes} (some_ : data ≠ []) : b64Encode data ≠ [] := by
  intro none_
  have length := length_b64Encode data
  rw [none_] at length
  have positive := List.length_pos_iff.mpr some_
  unfold b64EncodedSize at length
  simp only [List.length_nil] at length
  omega

end Opencodepp.Util
