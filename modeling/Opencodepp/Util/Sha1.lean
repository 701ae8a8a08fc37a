import Opencodepp.Library.Blocks
import Opencodepp.Library.ByteString

/-!
# SHA-1

`sha1` feeds a context: a buffer collects what does not fill a block of 64 bytes, and every whole
block goes through the compression function at once.  `finish` feeds the padding to the same
context.  `Rfc3174` states the standard: the padded message is cut into blocks, and the blocks are
folded with the compression function of the standard.  `Sha1.process_eq` says that the two
compression functions agree.
-/

set_option autoImplicit false

namespace Opencodepp.Util

open Opencodepp.Library

/-- Rotation to the left. -/
def rotl (v n : UInt32) : UInt32 := (v <<< n) ||| (v >>> (32 - n))

/-- A chain value of the hash; the last one is the digest. -/
structure Sha1Digest where
  h0 : UInt32
  h1 : UInt32
  h2 : UInt32
  h3 : UInt32
  h4 : UInt32
  deriving Repr, DecidableEq

namespace Sha1Digest

/-- The sums of two chain values, word by word. -/
def add (g h : Sha1Digest) : Sha1Digest :=
  ⟨g.h0 + h.h0, g.h1 + h.h1, g.h2 + h.h2, g.h3 + h.h3, g.h4 + h.h4⟩

end Sha1Digest

namespace Sha1

/-! ## The compression function -/

/-- A word of a block, its first byte highest. -/
def blockWord (block : Bytes) (i : Nat) : UInt32 :=
  ((block.getD (i * 4) 0).toUInt32 <<< 24) ||| ((block.getD (i * 4 + 1) 0).toUInt32 <<< 16) |||
    ((block.getD (i * 4 + 2) 0).toUInt32 <<< 8) ||| (block.getD (i * 4 + 3) 0).toUInt32

/-- Append so many words to the schedule. -/
def extend : Nat → List UInt32 → List UInt32
  | 0, w => w
  | n + 1, w =>
      let i := w.length
      extend n (w ++ [rotl (w.getD (i - 3) 0 ^^^ w.getD (i - 8) 0 ^^^ w.getD (i - 14) 0 ^^^
        w.getD (i - 16) 0) 1])

/-- The eighty words of the schedule. -/
def schedule (block : Bytes) : List UInt32 := extend 64 ((List.range 16).map (blockWord block))

/-- One of the eighty rounds. -/
def round (w : List UInt32) (s : Sha1Digest) (i : Nat) : Sha1Digest :=
  let ⟨a, b, d, e, f⟩ := s
  let (fn, k) : UInt32 × UInt32 :=
    if i < 20 then ((b &&& d) ||| (~~~b &&& e), 0x5A827999)
    else if i < 40 then (b ^^^ d ^^^ e, 0x6ED9EBA1)
    else if i < 60 then ((b &&& d) ||| (b &&& e) ||| (d &&& e), 0x8F1BBCDC)
    else (b ^^^ d ^^^ e, 0xCA62C1D6)
  let tmp := rotl a 5 + fn + f + k + w.getD i 0
  ⟨tmp, a, rotl b 30, d, e⟩

def process (h : Sha1Digest) (block : Bytes) : Sha1Digest :=
  h.add ((List.range 80).foldl (round (schedule block)) h)

/-! ## The context -/

/-- A hash under way: the chain value, the number of bits, and the buffer with its fill. -/
structure Ctx where
  h : Sha1Digest
  bits : UInt64
  buf : Bytes
  len : Nat
  deriving Repr, DecidableEq

/-- Copy bytes into a buffer. -/
def copyInto (buf : Bytes) (at_ : Nat) (data : Bytes) : Bytes :=
  buf.take at_ ++ data ++ buf.drop (at_ + data.length)

/-- The loop over the whole blocks of the data from an offset on. -/
def processAll : Nat → Sha1Digest → Bytes → Nat → Sha1Digest × Nat
  | 0, h, _, off => (h, off)
  | fuel + 1, h, data, off =>
      if off + 64 ≤ data.length then
        processAll fuel (process h ((data.drop off).take 64)) data (off + 64)
      else (h, off)

/-- The part of `update` that fills a buffer in use, with the offset it comes to. -/
def fill (c : Ctx) (data : Bytes) : Ctx × Nat :=
  if 0 < c.len then
    let need := 64 - c.len
    let take := if data.length < need then data.length else need
    let buf := copyInto c.buf c.len (data.take take)
    if c.len + take = 64 then ({ c with h := process c.h buf, buf := buf, len := 0 }, take)
    else ({ c with buf := buf, len := c.len + take }, take)
  else (c, 0)

def update (c : Ctx) (data : Bytes) : Ctx :=
  let (c, off) := fill { c with bits := c.bits + UInt64.ofNat data.length * 8 } data
  let (h, off) := processAll data.length c.h data off
  let c := { c with h := h }
  if off < data.length then
    { c with buf := copyInto c.buf 0 (data.drop off), len := data.length - off }
  else c

def finish (c : Ctx) : Sha1Digest :=
  let bits := c.bits
  let c := update c [0x80]
  -- the difference may wrap around
  let need := ((56 - UInt64.ofNat c.len + 64) % 64).toNat
  let c := if 0 < need then update c (List.replicate need 0) else c
  let lenb := (List.range 8).map fun i => (bits >>> UInt64.ofNat (56 - 8 * i)).toUInt8
  (update c lenb).h

def init : Ctx :=
  ⟨⟨0x67452301, 0xEFCDAB89, 0x98BADCFE, 0x10325476, 0xC3D2E1F0⟩, 0, List.replicate 64 0, 0⟩

end Sha1

def sha1 (data : Bytes) : Sha1Digest := Sha1.finish (Sha1.update Sha1.init data)

/-! ## The standard -/

namespace Rfc3174

/-- The circular left shift `S^n(X)`. -/
def S (n : Nat) (X : UInt32) : UInt32 := .ofBitVec (X.toBitVec.rotateLeft n)

/-- The words of a block as numbers. -/
def message (block : Bytes) (t : Nat) : UInt32 :=
  UInt32.ofNat ((block.getD (4 * t) 0).toNat * 2 ^ 24 + (block.getD (4 * t + 1) 0).toNat * 2 ^ 16 +
    (block.getD (4 * t + 2) 0).toNat * 2 ^ 8 + (block.getD (4 * t + 3) 0).toNat)

/-- The word `W(t)`. -/
def W (block : Bytes) (t : Nat) : UInt32 :=
  if 16 ≤ t then
    S 1 (W block (t - 3) ^^^ W block (t - 8) ^^^ W block (t - 14) ^^^ W block (t - 16))
  else message block t

/-- The function `f(t;B,C,D)`. -/
def f (t : Nat) (B C D : UInt32) : UInt32 :=
  if t ≤ 19 then (B &&& C) ||| (~~~B &&& D)
  else if t ≤ 39 then B ^^^ C ^^^ D
  else if t ≤ 59 then (B &&& C) ||| (B &&& D) ||| (C &&& D)
  else B ^^^ C ^^^ D

/-- The constant `K(t)`. -/
def K (t : Nat) : UInt32 :=
  if t ≤ 19 then 0x5A827999 else if t ≤ 39 then 0x6ED9EBA1
  else if t ≤ 59 then 0x8F1BBCDC else 0xCA62C1D6

/-- The words `A` to `E` before step `t`. -/
def words (block : Bytes) (h : Sha1Digest) : Nat → Sha1Digest
  | 0 => h
  | t + 1 =>
      let ⟨A, B, C, D, E⟩ := words block h t
      ⟨S 5 A + f t B C D + E + W block t + K t, A, S 30 B, C, D⟩

/-- The words `H0` to `H4` after a block. -/
def compress (h : Sha1Digest) (block : Bytes) : Sha1Digest :=
  let ⟨A, B, C, D, E⟩ := words block h 80
  ⟨h.h0 + A, h.h1 + B, h.h2 + C, h.h3 + D, h.h4 + E⟩

/-- The number of zeros in the padding of so many bytes. -/
def zeros (n : Nat) : Nat := (119 - n % 64) % 64

/-- The number of bits of a message in eight bytes, the highest first. -/
def lengthBytes (n : Nat) : Bytes :=
  (List.range 8).map fun i => UInt8.ofNat (8 * n / 256 ^ (7 - i))

def padded (data : Bytes) : Bytes :=
  data ++ 0x80 :: List.replicate (zeros data.length) 0 ++ lengthBytes data.length

/-- The digest of a message. -/
def digest (data : Bytes) : Sha1Digest :=
  (Blocks.blocks 64 (padded data)).foldl compress
    ⟨0x67452301, 0xEFCDAB89, 0x98BADCFE, 0x10325476, 0xC3D2E1F0⟩

end Rfc3174

/-! ## The compression functions agree -/

namespace Sha1

theorem rotl_eq {n : Nat} (some_ : 0 < n) (inside : n < 32) (v : UInt32) :
    rotl v (UInt32.ofNat n) = Rfc3174.S n v := by
  have left : (UInt32.ofNat n).toNat = n := UInt32.toNat_ofNat_of_lt' (by simp [UInt32.size]; omega)
  have right : (32 - UInt32.ofNat n).toNat = 32 - n := by
    rw [UInt32.toNat_sub_of_le _ _ (by rw [UInt32.le_iff_toNat_le, left]; exact Nat.le_of_lt inside),
      left]
    rfl
  have count (k : UInt32) : (k.toBitVec % 32).toNat = k.toNat % 32 := rfl
  refine UInt32.toBitVec_inj.mp ?_
  unfold rotl Rfc3174.S
  rw [UInt32.toBitVec_or, UInt32.toBitVec_shiftLeft, UInt32.toBitVec_shiftRight,
    BitVec.shiftLeft_eq', BitVec.ushiftRight_eq', count, count, left, right,
    BitVec.rotateLeft_def, Nat.mod_eq_of_lt inside, Nat.mod_eq_of_lt (by omega : 32 - n < 32)]

/-- Four bytes side by side. -/
theorem toNat_four_bytes (a b c d : UInt8) :
    ((a.toUInt32 <<< 24) ||| (b.toUInt32 <<< 16) ||| (c.toUInt32 <<< 8) ||| d.toUInt32).toNat =
      a.toNat * 2 ^ 24 + b.toNat * 2 ^ 16 + c.toNat * 2 ^ 8 + d.toNat := by
  have smallA := a.toNat_lt
  have smallB := b.toNat_lt
  have smallC := c.toNat_lt
  have smallD := d.toNat_lt
  have shifted (x : UInt8) (n : UInt32) (k : Nat) (count : n.toNat % 32 = k) (low : k ≤ 24) :
      (x.toUInt32 <<< n).toNat = 2 ^ k * x.toNat := by
    have small := x.toNat_lt
    have power : 2 ^ k ≤ 2 ^ 24 := Nat.pow_le_pow_right (by decide) low
    have product : 2 ^ k * x.toNat < 2 ^ 24 * 2 ^ 8 :=
      Nat.mul_lt_mul_of_le_of_lt power small (by decide)
    rw [UInt32.toNat_shiftLeft, count, Nat.shiftLeft_eq, UInt8.toNat_toUInt32, Nat.mul_comm]
    exact Nat.mod_eq_of_lt product
  rw [UInt32.toNat_or, UInt32.toNat_or, UInt32.toNat_or, shifted a 24 24 rfl (by decide),
    shifted b 16 16 rfl (by decide), shifted c 8 8 rfl (by decide), UInt8.toNat_toUInt32,
    ← Nat.two_pow_add_eq_or_of_lt (show 2 ^ 16 * b.toNat < 2 ^ 24 by omega)]
  have second : 2 ^ 24 * a.toNat + 2 ^ 16 * b.toNat = 2 ^ 16 * (2 ^ 8 * a.toNat + b.toNat) := by
    omega
  rw [second, ← Nat.two_pow_add_eq_or_of_lt (show 2 ^ 8 * c.toNat < 2 ^ 16 by omega)]
  have third : 2 ^ 16 * (2 ^ 8 * a.toNat + b.toNat) + 2 ^ 8 * c.toNat =
      2 ^ 8 * (2 ^ 16 * a.toNat + 2 ^ 8 * b.toNat + c.toNat) := by
    omega
  rw [third, ← Nat.two_pow_add_eq_or_of_lt smallD]
  omega

theorem blockWord_eq (block : Bytes) (i : Nat) : blockWord block i = Rfc3174.message block i := by
  unfold blockWord Rfc3174.message
  rw [← toNat_four_bytes, UInt32.ofNat_toNat, Nat.mul_comm i 4]

/-- The schedule has the words of the standard. -/
theorem extend_eq (block : Bytes) : ∀ (n i : Nat), 16 ≤ i →
    extend n ((List.range i).map (Rfc3174.W block)) = (List.range (i + n)).map (Rfc3174.W block) := by
  intro n
  induction n with
  | zero => exact fun i _ => rfl
  | succ n inductionHypothesis =>
      intro i enough
      have word {j : Nat} (before : j < i) :
          ((List.range i).map (Rfc3174.W block)).getD j 0 = Rfc3174.W block j := by
        rw [List.getD_eq_getElem?_getD, List.getElem?_map, List.getElem?_range before]
        rfl
      have next : Rfc3174.W block i = rotl (Rfc3174.W block (i - 3) ^^^ Rfc3174.W block (i - 8) ^^^
          Rfc3174.W block (i - 14) ^^^ Rfc3174.W block (i - 16)) 1 := by
        rw [Rfc3174.W, if_pos enough]
        exact (rotl_eq (by decide) (by decide) _).symm
      unfold extend
      dsimp only
      rw [List.length_map, List.length_range, word (by omega), word (by omega), word (by omega),
        word (by omega), ← next]
      have longer : (List.range i).map (Rfc3174.W block) ++ [Rfc3174.W block i] =
          (List.range (i + 1)).map (Rfc3174.W block) := by
        rw [List.range_succ, List.map_append]
        rfl
      rw [longer, inductionHypothesis (i + 1) (by omega), Nat.add_assoc, Nat.add_comm 1 n]

theorem schedule_eq (block : Bytes) :
    schedule block = (List.range 80).map (Rfc3174.W block) := by
  have first : (List.range 16).map (blockWord block) = (List.range 16).map (Rfc3174.W block) := by
    refine List.map_congr_left fun t member => ?_
    rw [blockWord_eq, Rfc3174.W, if_neg (Nat.not_le.mpr (List.mem_range.mp member))]
  unfold schedule
  rw [first, extend_eq block 64 16 (Nat.le_refl _)]

theorem round_mk (w : List UInt32) (A B C D E : UInt32) (t : Nat) :
    round w ⟨A, B, C, D, E⟩ t = ⟨Rfc3174.S 5 A + Rfc3174.f t B C D + E + Rfc3174.K t + w.getD t 0,
      A, Rfc3174.S 30 B, C, D⟩ := by
  have functions : (if t < 20 then ((B &&& C) ||| (~~~B &&& D), (0x5A827999 : UInt32))
      else if t < 40 then (B ^^^ C ^^^ D, 0x6ED9EBA1)
      else if t < 60 then ((B &&& C) ||| (B &&& D) ||| (C &&& D), 0x8F1BBCDC)
      else (B ^^^ C ^^^ D, 0xCA62C1D6)) = (Rfc3174.f t B C D, Rfc3174.K t) := by
    unfold Rfc3174.f Rfc3174.K
    simp only [Nat.lt_succ_iff]
    split
    · rfl
    · split
      · rfl
      · split <;> rfl
  have five : rotl A 5 = Rfc3174.S 5 A := rotl_eq (by decide) (by decide) A
  have thirty : rotl B 30 = Rfc3174.S 30 B := rotl_eq (by decide) (by decide) B
  unfold round
  dsimp only
  rw [functions, five, thirty]

/-- A round is a step of the standard. -/
theorem round_eq (block : Bytes) {t : Nat} (before : t < 80) (h : Sha1Digest) :
    round (schedule block) (Rfc3174.words block h t) t = Rfc3174.words block h (t + 1) := by
  have word : (schedule block).getD t 0 = Rfc3174.W block t := by
    rw [schedule_eq, List.getD_eq_getElem?_getD, List.getElem?_map, List.getElem?_range before]
    rfl
  rw [Rfc3174.words]
  generalize Rfc3174.words block h t = s
  obtain ⟨A, B, C, D, E⟩ := s
  dsimp only
  rw [round_mk, word, UInt32.add_assoc _ (Rfc3174.K t), UInt32.add_comm (Rfc3174.K t),
    ← UInt32.add_assoc]

theorem process_eq (h : Sha1Digest) (block : Bytes) : process h block = Rfc3174.compress h block := by
  have rounds : ∀ t ≤ 80, (List.range t).foldl (round (schedule block)) h =
      Rfc3174.words block h t := by
    intro t
    induction t with
    | zero => exact fun _ => rfl
    | succ t inductionHypothesis =>
        intro inside
        rw [List.range_succ, List.foldl_append, inductionHypothesis (Nat.le_of_succ_le inside)]
        exact round_eq block inside h
  unfold process Rfc3174.compress
  rw [rounds 80 (Nat.le_refl _)]
  rfl

end Sha1

end Opencodepp.Util

/-!
## The stream of a SHA-1 hash

A context that was fed some data holds the chain value of the whole blocks of the data and, in its
buffer, the rest (`Holds`).  `update` keeps this for any cut of the data, and so the padding that
`finish` feeds in three parts ends at a block (`sha1_eq_digest`).
-/

namespace Opencodepp.Util.Sha1

open Opencodepp.Library
open Opencodepp.Library.Blocks

/-- The chain value of the whole blocks of the data. -/
def chainOf (data : Bytes) : Sha1Digest := (blocks 64 data).foldl process init.h

/-- What a context holds that was fed the data. -/
structure Holds (c : Ctx) (data : Bytes) : Prop where
  chain : c.h = chainOf data
  len : c.len = (rest 64 data).length
  buffer : c.buf.take c.len = rest 64 data
  size : c.buf.length = 64

theorem holds_init : Holds init [] := ⟨rfl, rfl, rfl, rfl⟩

theorem Holds.len_lt {c : Ctx} {data : Bytes} (holds : Holds c data) : c.len < 64 := by
  rw [holds.len]
  exact length_rest_lt (by decide) data

/-! ## Copying -/

theorem length_copyInto {buf data : Bytes} {n : Nat} (fits : n + data.length ≤ buf.length) :
    (copyInto buf n data).length = buf.length := by
  unfold copyInto
  rw [List.length_append, List.length_append, List.length_take_of_le (by omega), List.length_drop]
  omega

theorem take_copyInto {buf data : Bytes} {n : Nat} (fits : n + data.length ≤ buf.length) :
    (copyInto buf n data).take (n + data.length) = buf.take n ++ data := by
  have length : (buf.take n ++ data).length = n + data.length := by
    rw [List.length_append, List.length_take_of_le (by omega)]
  unfold copyInto
  rw [← length, List.take_left]

/-! ## Whole blocks of the data -/

/-- The loop takes the whole blocks behind the offset. -/
theorem processAll_eq (data : Bytes) : ∀ (fuel off : Nat) (h : Sha1Digest), off ≤ data.length →
    data.length < off + 64 * (fuel + 1) →
      (processAll fuel h data off).1 = (blocks 64 (data.drop off)).foldl process h ∧
        (processAll fuel h data off).2 ≤ data.length ∧
        data.drop (processAll fuel h data off).2 = rest 64 (data.drop off) := by
  intro fuel
  induction fuel with
  | zero =>
      intro off h inside enough
      have short : (data.drop off).length < 64 := by rw [List.length_drop]; omega
      rw [blocks_of_short short, rest_of_short short]
      exact ⟨rfl, inside, rfl⟩
  | succ fuel inductionHypothesis =>
      intro off h inside enough
      unfold processAll
      split
      · next more =>
          have whole : ((data.drop off).take 64).length = 64 :=
            List.length_take_of_le (by rw [List.length_drop]; omega)
          have cut : data.drop off = (data.drop off).take 64 ++ data.drop (off + 64) := by
            rw [← List.drop_drop]
            exact (List.take_append_drop 64 _).symm
          obtain ⟨chain, within, last⟩ := inductionHypothesis (off + 64)
            (process h ((data.drop off).take 64)) more (by omega)
          have first : blocks 64 (data.drop off) =
              (data.drop off).take 64 :: blocks 64 (data.drop (off + 64)) :=
            (congrArg (blocks 64) cut).trans (blocks_block_append (by decide) whole _)
          have same : rest 64 (data.drop off) = rest 64 (data.drop (off + 64)) :=
            (congrArg (rest 64) cut).trans (rest_block_append (by decide) whole _)
          rw [first, List.foldl_cons, same]
          exact ⟨chain, within, last⟩
      · next none_ =>
          have short : (data.drop off).length < 64 := by rw [List.length_drop]; omega
          rw [blocks_of_short short, rest_of_short short]
          exact ⟨rfl, inside, rfl⟩

/-! ## Filling the buffer -/

/-- Filling takes a part of the data into the buffer: all of it, or as much as makes the buffer
empty again. -/
theorem fill_holds {c : Ctx} {data more : Bytes} (holds : Holds c data) :
    Holds (fill c more).1 (data ++ more.take (fill c more).2) ∧
      (fill c more).2 ≤ more.length ∧
      ((fill c more).1.len = 0 ∨ (fill c more).2 = more.length) := by
  have less := holds.len_lt
  unfold fill
  split
  · next used =>
      dsimp only
      generalize taken : (if more.length < 64 - c.len then more.length else 64 - c.len) = take
      have bound : take ≤ more.length ∧ c.len + take ≤ 64 ∧
          (c.len + take = 64 ∨ take = more.length) := by
        split at taken
        · omega
        · omega
      obtain ⟨within, room, which⟩ := bound
      have length : (more.take take).length = take := List.length_take_of_le within
      have fits : c.len + (more.take take).length ≤ c.buf.length := by
        rw [length, holds.size]
        exact room
      have content : (copyInto c.buf c.len (more.take take)).take (c.len + take) =
          rest 64 data ++ more.take take := by
        have copied := take_copyInto fits
        rwa [length, holds.buffer] at copied
      have size : (copyInto c.buf c.len (more.take take)).length = 64 := by
        rw [length_copyInto fits, holds.size]
      have pieces : (rest 64 data ++ more.take take).length = c.len + take := by
        rw [List.length_append, ← holds.len, length]
      split
      · next full =>
          refine ⟨?_, within, .inl rfl⟩
          have block : copyInto c.buf c.len (more.take take) = rest 64 data ++ more.take take := by
            rwa [full, List.take_of_length_le (Nat.le_of_eq size)] at content
          have whole : (rest 64 data ++ more.take take).length = 64 := pieces.trans full
          have one : blocks 64 (rest 64 data ++ more.take take) = [rest 64 data ++ more.take take] := by
            have split := blocks_block_append (by decide) whole []
            rwa [List.append_nil] at split
          have none_ : rest 64 (rest 64 data ++ more.take take) = [] := by
            have split := rest_block_append (by decide) whole []
            rwa [List.append_nil] at split
          refine ⟨?_, ?_, ?_, size⟩
          · show process c.h _ = _
            rw [holds.chain, block]
            unfold chainOf
            rw [blocks_append (by decide), List.foldl_append, one]
            rfl
          · rw [rest_append (by decide), none_]
            rfl
          · rw [rest_append (by decide), none_]
            rfl
      · next open_ =>
          have short : (rest 64 data ++ more.take take).length < 64 := by omega
          refine ⟨⟨?_, ?_, ?_, size⟩, within, .inr (by omega)⟩
          · show c.h = _
            unfold chainOf
            rw [blocks_append (by decide), blocks_of_short short, List.append_nil]
            exact holds.chain
          · rw [rest_append (by decide), rest_of_short short, pieces]
          · rw [rest_append (by decide), rest_of_short short]
            exact content
  · next unused =>
      refine ⟨?_, Nat.zero_le _, .inl (by dsimp only; omega)⟩
      rw [List.take_zero, List.append_nil]
      exact holds

/-- **A context holds what it was fed**, in whatever parts. -/
theorem Holds.update {c : Ctx} {data : Bytes} (holds : Holds c data) (more : Bytes) :
    Holds (update c more) (data ++ more) := by
  have fed : Holds { c with bits := c.bits + UInt64.ofNat more.length * 8 } data :=
    ⟨holds.chain, holds.len, holds.buffer, holds.size⟩
  obtain ⟨filled, within, which⟩ := @fill_holds _ _ more fed
  unfold Sha1.update
  dsimp only
  generalize fill { c with bits := c.bits + UInt64.ofNat more.length * 8 } more = result
    at filled within which
  obtain ⟨c, off⟩ := result
  dsimp only at filled within which ⊢
  obtain ⟨chained, inside, last⟩ := processAll_eq more more.length off c.h within (by omega)
  generalize processAll more.length c.h more off = processed at chained inside last
  obtain ⟨h, off'⟩ := processed
  dsimp only at chained inside last ⊢
  have whole : data ++ more = (data ++ more.take off) ++ more.drop off := by
    rw [List.append_assoc, List.take_append_drop]
  -- either nothing was left over before the blocks, or nothing is behind the filled part
  have behind : rest 64 (data ++ more.take off) ++ more.drop off = more.drop off ∨
      more.drop off = [] := by
    rcases which with empty | all
    · have none_ := filled.len
      rw [empty] at none_
      exact .inl (by rw [List.length_eq_zero_iff.mp none_.symm, List.nil_append])
    · exact .inr (List.drop_eq_nil_of_le (Nat.le_of_eq all.symm))
  have chainEq : h = chainOf (data ++ more) := by
    unfold chainOf
    rw [whole, blocks_append (by decide), List.foldl_append]
    show h = (blocks 64 _).foldl process (chainOf (data ++ more.take off))
    rw [← filled.chain, chained]
    rcases behind with same | none_
    · rw [same]
    · rw [none_, List.append_nil, blocks_of_short (length_rest_lt (by decide) _)]
      rfl
  have restEq : rest 64 (data ++ more) = rest 64 (rest 64 (data ++ more.take off) ++
      more.drop off) := by
    rw [whole, rest_append (by decide)]
  split
  · next some_ =>
      have left : rest 64 (data ++ more) = more.drop off' := by
        rcases behind with same | none_
        · rw [restEq, same, last]
        · -- the filled part was all of the data, so nothing is behind the blocks
          rw [none_, rest_of_short (by decide)] at last
          have ends := List.drop_eq_nil_iff.mp last
          omega
      have length : (more.drop off').length = more.length - off' := List.length_drop
      have short : (more.drop off').length < 64 := left ▸ length_rest_lt (by decide) _
      have fits : 0 + (more.drop off').length ≤ c.buf.length := by
        rw [filled.size]
        omega
      refine ⟨chainEq, by rw [left, length], ?_, ?_⟩
      · have copied := take_copyInto fits
        rw [List.take_zero, List.nil_append, length, Nat.zero_add] at copied
        rw [left]
        exact copied
      · exact (length_copyInto fits).trans filled.size
  · next none_ =>
      have ends : more.drop off' = [] := List.drop_eq_nil_of_le (Nat.not_lt.mp none_)
      have left : rest 64 (data ++ more) = rest 64 (data ++ more.take off) := by
        rcases behind with same | nothing
        · rw [restEq, same, ← last, ends, List.append_left_eq_self.mp same]
        · rw [restEq, nothing, List.append_nil, rest_of_short (length_rest_lt (by decide) _)]
      exact ⟨chainEq, left ▸ filled.len, left ▸ filled.buffer, filled.size⟩

theorem bits_fill (c : Ctx) (data : Bytes) : (fill c data).1.bits = c.bits := by
  -- the fields are taken apart first, so that no chain value has to be computed
  obtain ⟨h, bits, buf, len⟩ := c
  unfold fill
  dsimp only
  generalize (if data.length < 64 - len then data.length else 64 - len) = take
  split
  · split
    · rfl
    · rfl
  · rfl

theorem bits_update (c : Ctx) (data : Bytes) :
    (update c data).bits = c.bits + UInt64.ofNat data.length * 8 := by
  have same := bits_fill { c with bits := c.bits + UInt64.ofNat data.length * 8 } data
  unfold update
  dsimp only at same ⊢
  generalize c.bits + UInt64.ofNat data.length * 8 = bits at same ⊢
  generalize fill { c with bits := bits } data = result at same ⊢
  obtain ⟨c, off⟩ := result
  dsimp only at same ⊢
  generalize processAll data.length c.h data off = processed
  obtain ⟨h, off'⟩ := processed
  dsimp only
  split
  · exact same
  · exact same

/-! ## The padding -/

/-- The zeros of the padding, as many as the fill of the buffer asks for. -/
theorem need_eq {n len : Nat} (fill : len = (n + 1) % 64) :
    ((56 - UInt64.ofNat len + 64) % 64).toNat = Rfc3174.zeros n := by
  have all : ∀ k < 64, ((56 - UInt64.ofNat k + 64) % 64).toNat = (120 - k) % 64 := by
    decide +kernel
  rw [all len (by omega), fill]
  unfold Rfc3174.zeros
  omega

theorem lenb_eq {n : Nat} (short : n < 2 ^ 61) {bits : UInt64}
    (counted : bits = UInt64.ofNat n * 8) :
    ((List.range 8).map fun i => (bits >>> UInt64.ofNat (56 - 8 * i)).toUInt8) =
      Rfc3174.lengthBytes n := by
  have value : bits.toNat = 8 * n := by
    rw [counted, UInt64.toNat_mul, UInt64.toNat_ofNat']
    show n % 2 ^ 64 * 8 % 2 ^ 64 = 8 * n
    omega
  refine List.map_congr_left fun i member => ?_
  have inside := List.mem_range.mp member
  have places : (UInt64.ofNat (56 - 8 * i)).toNat % 64 = 8 * (7 - i) := by
    rw [UInt64.toNat_ofNat', Nat.mod_eq_of_lt (by omega), Nat.mod_eq_of_lt (by omega)]
    omega
  refine UInt8.toNat_inj.mp ?_
  rw [UInt64.toNat_toUInt8, UInt64.toNat_shiftRight, places, value, Nat.shiftRight_eq_div_pow,
    Nat.pow_mul, UInt8.toNat_ofNat']

theorem length_rest_concat (data : Bytes) (b : UInt8) :
    (rest 64 (data ++ [b])).length = (data.length + 1) % 64 := by
  rw [length_rest, List.length_append, List.length_singleton]

end Opencodepp.Util.Sha1

namespace Opencodepp.Util

open Opencodepp.Library
open Opencodepp.Library.Blocks
open Opencodepp.Util.Sha1

/-- **The hash is that of the standard.** -/
theorem sha1_eq_digest {data : Bytes} (short : data.length < 2 ^ 61) :
    sha1 data = Rfc3174.digest data := by
  have fed := holds_init.update data
  rw [List.nil_append] at fed
  have bits : (update init data).bits = UInt64.ofNat data.length * 8 := by
    rw [bits_update]
    exact UInt64.zero_add _
  unfold sha1 finish
  dsimp only
  generalize update init data = c at fed bits
  have marked := fed.update [0x80]
  have len : (update c [0x80]).len = (data.length + 1) % 64 := by
    rw [marked.len, length_rest_concat]
  generalize update c [0x80] = c' at marked len
  rw [need_eq len, lenb_eq short bits]
  have zeroed : Holds (if 0 < Rfc3174.zeros data.length then
      update c' (List.replicate (Rfc3174.zeros data.length) 0) else c')
      (data ++ [0x80] ++ List.replicate (Rfc3174.zeros data.length) 0) := by
    split
    · exact marked.update _
    · next none_ =>
        rw [Nat.eq_zero_of_not_pos none_, List.replicate_zero, List.append_nil]
        exact marked
  have ended := zeroed.update (Rfc3174.lengthBytes data.length)
  have message : data ++ [0x80] ++ List.replicate (Rfc3174.zeros data.length) 0 ++
      Rfc3174.lengthBytes data.length = Rfc3174.padded data := by
    unfold Rfc3174.padded
    rw [List.append_assoc data]
    rfl
  rw [ended.chain, message]
  unfold chainOf Rfc3174.digest
  rw [show process = Rfc3174.compress from funext₂ process_eq]
  rfl

theorem sha1_eq_digest_abc : sha1 (str "abc") = Rfc3174.digest (str "abc") :=
  sha1_eq_digest (by decide)

example : sha1 (str "abc") = ⟨0xA9993E36, 0x4706816A, 0xBA3E2571, 0x7850C26C, 0x9CD0D89D⟩ := by
  decide +kernel

end Opencodepp.Util
