import Mathlib.Data.List.Basic
import Mathlib.Tactic.NormNum
import Opencodepp.Library.Transition

/-!
# The arena

An arena hands out pieces of large blocks, one behind the other.  The blocks form a list, the
newest first, with a cursor to the one that is being filled; a request that the block at the
cursor has no room for goes to the next older one with room, and where there is none a new block
is asked of the system.  `reset` takes all pieces back and keeps the blocks, `clear` gives the
blocks back.

All sizes are 64-bit numbers, and sums of them wrap around.
-/

set_option autoImplicit false

namespace Opencodepp.Core

open Opencodepp.Library

/-- A block of the arena: where its header is, how much it holds and how much of that is used. -/
structure Block where
  raw : UInt64
  cap : UInt64
  off : UInt64
  deriving Repr, DecidableEq

/-- What the system answers to a request for memory, by the number of the request, the blocks the
arena has and the size. -/
abbrev Malloc := Nat → List Block → UInt64 → Option UInt64

structure Arena where
  blocks : List Block
  /-- The place of the cursor among the blocks. -/
  cur : Nat
  nextCap : UInt64
  used : UInt64
  total : UInt64
  nblocks : Nat
  mallocs : Nat
  deriving Repr, DecidableEq

namespace Arena

def kDefaultChunk : UInt64 := 0x4000
def kMaxChunk : UInt64 := 0x100000
def kAlign : UInt64 := 64

/-- The size of the header of a block. -/
def header : UInt64 := 32

/-- The alignment of every request. -/
def maxAlign : UInt64 := 16

def new (firstChunk : UInt64) : Arena := ⟨[], 0, firstChunk, 0, 0, 0, 0⟩

def alignUp (v a : UInt64) : UInt64 := (v + a - 1) &&& ~~~(a - 1)

/-- Where the data of a block begins. -/
def data (b : Block) : UInt64 := (b.raw + header + kAlign - 1) &&& ~~~(kAlign - 1)

/-- A request for so many bytes at an alignment. -/
structure Request where
  n : UInt64
  align : UInt64
  deriving Repr, DecidableEq

namespace Request

/-- The alignment that is served. -/
def alignment (r : Request) : UInt64 :=
  let align := if r.align < maxAlign then maxAlign else r.align
  if kAlign < align then kAlign else align

/-- The size that is served. -/
def size (r : Request) : UInt64 := if r.n = 0 then 1 else r.n

/-- Where a block serves a request. -/
def place (r : Request) (b : Block) : UInt64 := alignUp b.off r.alignment

/-- A block has room for a request. -/
def fits (r : Request) (b : Block) : Bool := r.place b + r.size ≤ b.cap

/-- A block after it served a request. -/
def bump (r : Request) (b : Block) : Block := { b with off := r.place b + r.size }

end Request

/-- The capacity of a new block. -/
def chunkFor (a : Arena) (need : UInt64) : UInt64 := if a.nextCap < need then need else a.nextCap

/-- The capacities double up to a limit, and then grow by the same amount. -/
def nextChunk (cap : UInt64) : UInt64 := if kMaxChunk ≤ cap then cap + kMaxChunk else cap * 2

/-- Ask for a new block. -/
def grow (malloc : Malloc) (a : Arena) (need : UInt64) : Option Block × Arena :=
  let cap := chunkFor a need
  let a := { a with nextCap := nextChunk a.nextCap }
  if 0xFFFFFFFFFFFFFFFF - header - kAlign < cap then (none, a)
  else
    let size := header + cap + kAlign - 1
    let raw := malloc a.mallocs a.blocks size
    let a := { a with mallocs := a.mallocs + 1 }
    match raw with
    | none => (none, a)
    | some raw =>
        let b : Block := ⟨raw, cap, 0⟩
        (some b, { a with
          blocks := b :: a.blocks
          cur := 0
          nblocks := a.nblocks + 1
          total := a.total + size })

/-- The first block with room and its place, from the cursor on. -/
def walk (r : Request) : List Block → Option (Nat × Block)
  | [] => none
  | b :: older => if r.fits b then some (0, b) else (walk r older).map fun (i, b) => (i + 1, b)

def alloc (malloc : Malloc) (a : Arena) (r : Request) : Option UInt64 × Arena :=
  match walk r (a.blocks.drop a.cur) with
  | some (i, b) =>
      let off := r.place b
      (some (data b + off), { a with
        blocks := a.blocks.set (a.cur + i) (r.bump b)
        used := a.used + (off + r.size - b.off)
        cur := a.cur + i })
  | none =>
      match grow malloc a r.size with
      | (none, a) => (none, a)
      | (some b, a) =>
          let off := r.place b
          (some (data b + off), { a with
            blocks := r.bump b :: a.blocks.tail
            used := a.used + (off + r.size) })

def reset (a : Arena) : Arena :=
  { a with blocks := a.blocks.map fun b => { b with off := 0 }, cur := 0, used := 0 }

def clear (a : Arena) : Arena :=
  { a with blocks := [], cur := 0, used := 0, total := 0, nblocks := 0, nextCap := kDefaultChunk }

/-! ## Rounding up -/

theorem toNat_clear (x m : UInt64) : (x &&& ~~~m).toNat = x.toNat - (x.toNat &&& m.toNat) := by
  have apart : (x.toBitVec &&& ~~~m.toBitVec) &&& (x.toBitVec &&& m.toBitVec) = 0#64 := by
    ext i inside
    simp only [BitVec.getElem_and, BitVec.getElem_not, BitVec.getElem_zero]
    cases x.toBitVec[i] <;> cases m.toBitVec[i] <;> rfl
  have whole : (x.toBitVec &&& ~~~m.toBitVec) + (x.toBitVec &&& m.toBitVec) = x.toBitVec := by
    rw [BitVec.add_eq_or_of_and_eq_zero _ _ apart]
    ext i inside
    simp only [BitVec.getElem_or, BitVec.getElem_and, BitVec.getElem_not]
    cases x.toBitVec[i] <;> cases m.toBitVec[i] <;> rfl
  have sum := congrArg BitVec.toNat whole
  rw [BitVec.toNat_add_of_and_eq_zero apart, BitVec.toNat_and x.toBitVec m.toBitVec] at sum
  exact Nat.eq_sub_of_add_eq sum

/-- Rounding up, where the sum does not wrap around. -/
theorem toNat_alignUp {v a : UInt64} (some_ : 0 < a.toNat) (fits : v.toNat + a.toNat ≤ 2 ^ 64) :
    (alignUp v a).toNat =
      (v.toNat + (a.toNat - 1)) - ((v.toNat + (a.toNat - 1)) &&& (a.toNat - 1)) := by
  have less : (a - 1).toNat = a.toNat - 1 :=
    UInt64.toNat_sub_of_le a 1 (UInt64.le_iff_toNat_le.mpr some_)
  have sum : (v + a - 1).toNat = v.toNat + (a.toNat - 1) := by
    have same : v + a - 1 = v + (a - 1) := by
      rw [UInt64.sub_eq_add_neg, UInt64.sub_eq_add_neg, UInt64.add_assoc]
    rw [same, UInt64.toNat_add, less]
    exact Nat.mod_eq_of_lt (by omega)
  unfold alignUp
  rw [toNat_clear, sum, less]

theorem le_alignUp {v a : UInt64} (some_ : 0 < a.toNat) (fits : v.toNat + a.toNat ≤ 2 ^ 64) :
    v.toNat ≤ (alignUp v a).toNat := by
  rw [toNat_alignUp some_ fits]
  have low : (v.toNat + (a.toNat - 1)) &&& (a.toNat - 1) ≤ a.toNat - 1 := Nat.and_le_right
  omega

theorem alignUp_le {v a : UInt64} (some_ : 0 < a.toNat) (fits : v.toNat + a.toNat ≤ 2 ^ 64) :
    (alignUp v a).toNat ≤ v.toNat + (a.toNat - 1) := by
  rw [toNat_alignUp some_ fits]
  exact Nat.sub_le _ _

/-- Rounding up to a power of two. -/
theorem toNat_alignUp_pow {v a : UInt64} {k : Nat} (power : a.toNat = 2 ^ k)
    (fits : v.toNat + a.toNat ≤ 2 ^ 64) :
    (alignUp v a).toNat = (v.toNat + (2 ^ k - 1)) - (v.toNat + (2 ^ k - 1)) % 2 ^ k := by
  rw [toNat_alignUp (power ▸ Nat.two_pow_pos k) fits, power, Nat.and_two_pow_sub_one_eq_mod]

theorem dvd_alignUp {v a : UInt64} {k : Nat} (power : a.toNat = 2 ^ k)
    (fits : v.toNat + a.toNat ≤ 2 ^ 64) : 2 ^ k ∣ (alignUp v a).toNat := by
  rw [toNat_alignUp_pow power fits]
  exact Nat.dvd_sub_mod _

/-! ## Requests -/

namespace Request

theorem alignment_bounds (r : Request) :
    16 ≤ r.alignment.toNat ∧ r.alignment.toNat ≤ 64 := by
  have low : maxAlign.toNat = 16 := rfl
  have high : kAlign.toNat = 64 := rfl
  have raised : 16 ≤ (if r.align < maxAlign then maxAlign else r.align).toNat := by
    split
    · exact Nat.le_of_eq low.symm
    · next enough =>
        rw [UInt64.lt_iff_toNat_lt, low, Nat.not_lt] at enough
        exact enough
  unfold alignment
  dsimp only
  generalize (if r.align < maxAlign then maxAlign else r.align) = align at raised ⊢
  split
  · exact ⟨by decide, Nat.le_of_eq high⟩
  · next small =>
      rw [UInt64.lt_iff_toNat_lt, high, Nat.not_lt] at small
      exact ⟨raised, small⟩

theorem size_pos (r : Request) : 0 < r.size.toNat := by
  unfold size
  split
  · decide
  · next some_ => exact Nat.pos_of_ne_zero fun zero => some_ (UInt64.toNat_inj.mp zero)

end Request

/-- The bytes that a block takes up, its header and the slack of its data included. -/
def extent (b : Block) : Nat := b.cap.toNat + 95

theorem data_bounds {b : Block} (inside : b.raw.toNat + extent b < 2 ^ 64) :
    b.raw.toNat + 32 ≤ (data b).toNat ∧ (data b).toNat ≤ b.raw.toNat + 95 ∧
      64 ∣ (data b).toNat := by
  unfold extent at inside
  have sum : (b.raw + header).toNat = b.raw.toNat + 32 := by
    rw [UInt64.toNat_add]
    exact Nat.mod_eq_of_lt (by show b.raw.toNat + 32 < 2 ^ 64; omega)
  have same : data b = alignUp (b.raw + header) kAlign := rfl
  have align : kAlign.toNat = 2 ^ 6 := rfl
  have fits : (b.raw + header).toNat + kAlign.toNat ≤ 2 ^ 64 := by
    rw [sum, align]
    omega
  have low := le_alignUp (by rw [align]; decide) fits
  have high := alignUp_le (by rw [align]; decide) fits
  have dvd := dvd_alignUp align fits
  rw [sum] at low high
  rw [align] at high
  rw [same]
  exact ⟨low, by omega, dvd⟩

theorem place_bounds {b : Block} (filled : b.off.toNat ≤ b.cap.toNat)
    (inside : b.raw.toNat + extent b < 2 ^ 64) (r : Request) :
    b.off.toNat ≤ (r.place b).toNat ∧ b.off.toNat + r.alignment.toNat ≤ 2 ^ 64 := by
  obtain ⟨low, high⟩ := r.alignment_bounds
  unfold extent at inside
  have fits : b.off.toNat + r.alignment.toNat ≤ 2 ^ 64 := by omega
  exact ⟨le_alignUp (by omega) fits, fits⟩

/-! ## The walk -/

/-- The block that is found, between the ones it is found behind and the ones behind it. -/
theorem walk_eq_some {r : Request} : ∀ {blocks : List Block} {i : Nat} {b : Block},
    walk r blocks = some (i, b) → ∃ before after, blocks = before ++ b :: after ∧
      before.length = i ∧ (∀ c ∈ before, r.fits c = false) ∧ r.fits b = true := by
  intro blocks
  induction blocks with
  | nil => exact fun never => nomatch never
  | cons c older inductionHypothesis =>
      intro i b found
      unfold walk at found
      split at found
      · next room =>
          cases found
          exact ⟨[], older, rfl, rfl, by simp, room⟩
      · next full =>
          obtain ⟨⟨j, d⟩, later, same⟩ := Option.map_eq_some_iff.mp found
          cases same
          obtain ⟨before, after, rfl, rfl, none_, room⟩ := inductionHypothesis later
          exact ⟨c :: before, after, rfl, rfl,
            List.forall_mem_cons.mpr ⟨Bool.eq_false_iff.mpr full, none_⟩, room⟩

theorem walk_eq_none {r : Request} : ∀ {blocks : List Block},
    walk r blocks = none ↔ ∀ b ∈ blocks, r.fits b = false := by
  intro blocks
  induction blocks with
  | nil => exact ⟨fun _ b member => absurd member List.not_mem_nil, fun _ => rfl⟩
  | cons c older inductionHypothesis =>
      unfold walk
      rw [List.forall_mem_cons]
      cases room : r.fits c with
      | true => simp
      | false => simp [inductionHypothesis]

/-- What an allocation does: it serves the request in a block with room, in a new block, or not
at all. -/
inductive Allocates (malloc : Malloc) (a : Arena) (r : Request) :
    Option UInt64 → Arena → Prop
  | served (newer before : List Block) (b : Block) (after : List Block)
      (cursor : newer = a.blocks.take a.cur) (blocks : a.blocks = newer ++ (before ++ b :: after))
      (full : ∀ c ∈ before, r.fits c = false) (room : r.fits b = true) :
      Allocates malloc a r (some (data b + r.place b))
        { a with
          blocks := newer ++ (before ++ r.bump b :: after)
          used := a.used + (r.place b + r.size - b.off)
          cur := a.cur + before.length }
  | grown (b : Block) (next : Arena) (full : ∀ c ∈ a.blocks.drop a.cur, r.fits c = false)
      (grew : grow malloc a r.size = (some b, next)) :
      Allocates malloc a r (some (data b + r.place b))
        { next with
          blocks := r.bump b :: next.blocks.tail
          used := next.used + (r.place b + r.size) }
  | refused (next : Arena) (full : ∀ c ∈ a.blocks.drop a.cur, r.fits c = false)
      (grew : grow malloc a r.size = (none, next)) : Allocates malloc a r none next

theorem allocates (malloc : Malloc) (a : Arena) (r : Request) :
    Allocates malloc a r (alloc malloc a r).1 (alloc malloc a r).2 := by
  unfold alloc
  cases found : walk r (a.blocks.drop a.cur) with
  | some place =>
      obtain ⟨i, b⟩ := place
      obtain ⟨before, after, rest, rfl, full, room⟩ := walk_eq_some found
      have whole : a.blocks = a.blocks.take a.cur ++ (before ++ b :: after) := by
        rw [← rest]
        exact (List.take_append_drop ..).symm
      have inside : a.cur < a.blocks.length := by
        by_contra past
        rw [List.drop_eq_nil_of_le (Nat.not_lt.mp past)] at rest
        simp at rest
      have length : (a.blocks.take a.cur).length = a.cur :=
        List.length_take_of_le (Nat.le_of_lt inside)
      have set_ : a.blocks.set (a.cur + before.length) (r.bump b) =
          a.blocks.take a.cur ++ (before ++ r.bump b :: after) := by
        conv_lhs => rw [whole]
        rw [List.set_append_right _ _ (by omega), length, Nat.add_sub_cancel_left,
          List.set_append_right _ _ (Nat.le_refl _), Nat.sub_self, List.set_cons_zero]
      dsimp only
      rw [set_]
      exact .served _ before b after rfl whole full room
  | none =>
      have full := walk_eq_none.mp found
      dsimp only
      generalize grew : grow malloc a r.size = result
      obtain ⟨block, next⟩ := result
      cases block with
      | none => exact .refused next full grew
      | some b => exact .grown b next full grew

/-- What a growth does. -/
theorem grow_eq_some {malloc : Malloc} {a next : Arena} {need : UInt64} {b : Block}
    (grew : grow malloc a need = (some b, next)) :
    malloc a.mallocs a.blocks (header + b.cap + kAlign - 1) = some b.raw ∧ b.off = 0 ∧
      need ≤ b.cap ∧ b.cap.toNat + 97 ≤ 2 ^ 64 ∧ next.blocks = b :: a.blocks ∧ next.cur = 0 ∧
      next.used = a.used ∧ next.nblocks = a.nblocks + 1 := by
  unfold grow at grew
  dsimp only at grew
  split at grew
  · cases grew
  · next small =>
      split at grew
      · cases grew
      · next raw answered =>
          cases grew
          have enough : need ≤ chunkFor a need := by
            unfold chunkFor
            split
            · exact UInt64.le_refl _
            · next large => exact UInt64.not_lt.mp large
          refine ⟨answered, rfl, enough, ?_, rfl, rfl, rfl, rfl⟩
          rw [UInt64.lt_iff_toNat_lt, Nat.not_lt] at small
          have limit : (0xFFFFFFFFFFFFFFFF - header - kAlign : UInt64).toNat = 2 ^ 64 - 97 := rfl
          rw [limit] at small
          show (chunkFor a need).toNat + 97 ≤ 2 ^ 64
          omega

theorem grow_eq_none {malloc : Malloc} {a next : Arena} {need : UInt64}
    (grew : grow malloc a need = (none, next)) :
    next.blocks = a.blocks ∧ next.cur = a.cur ∧ next.used = a.used ∧ next.total = a.total ∧
      next.nblocks = a.nblocks := by
  unfold grow at grew
  dsimp only at grew
  split at grew
  · cases grew
    exact ⟨rfl, rfl, rfl, rfl, rfl⟩
  · split at grew
    · cases grew
      exact ⟨rfl, rfl, rfl, rfl, rfl⟩
    · cases grew

end Arena

end Opencodepp.Core
