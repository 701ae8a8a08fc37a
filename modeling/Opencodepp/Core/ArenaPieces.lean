import Mathlib.Algebra.Order.BigOperators.Group.List
import Opencodepp.Core.Arena

/-!
# The pieces of an arena

The pieces that an arena handed out since the last reset lie in its blocks, and no two of them
overlap, as long as no sum of an offset and a size wraps around (`pieces_apart`).  A sum that does
wrap around passes for a small one: a request for nearly all of memory is served from a block that
is not even half full, and the next piece overlaps an old one (`huge_request_overlaps`).
-/

set_option autoImplicit false

namespace Opencodepp.Core.Arena

open Opencodepp.Library

/-! ## Runs -/

/-- A piece of memory that was handed out. -/
structure Piece where
  start : UInt64
  request : Request
  deriving Repr, DecidableEq

/-- The end of a piece. -/
def Piece.stop (p : Piece) : Nat := p.start.toNat + p.request.size.toNat

inductive ArenaOp
  | alloc (r : Request)
  | reset
  | clear

/-- An arena with the pieces handed out since the last reset, newest first. -/
structure Lent where
  arena : Arena
  pieces : List Piece
  deriving Repr, DecidableEq

def perform (malloc : Malloc) (s : Lent) : ArenaOp → Option Lent
  | .alloc r =>
      let (start, arena) := alloc malloc s.arena r
      some ⟨arena, (start.map fun start => ⟨start, r⟩).toList ++ s.pieces⟩
  | .reset => some ⟨s.arena.reset, []⟩
  | .clear => some ⟨s.arena.clear, []⟩

/-- Two ranges of addresses do not overlap. -/
def Apart (start stop start' stop' : Nat) : Prop := stop ≤ start' ∨ stop' ≤ start

/-- A system answers a request with memory that no block of the arena lies in. -/
structure Lawful (malloc : Malloc) : Prop where
  inside : ∀ {k blocks size raw}, malloc k blocks size = some raw →
    raw.toNat + size.toNat < 2 ^ 64
  fresh : ∀ {k blocks size raw}, malloc k blocks size = some raw → ∀ b ∈ blocks,
    Apart raw.toNat (raw.toNat + size.toNat) b.raw.toNat (b.raw.toNat + extent b)

/-- No block that the cursor can come to makes the sum for a request wrap around. -/
def NoWrap (s : Lent) : ArenaOp → Prop
  | .alloc r => ∀ b ∈ s.arena.blocks.drop s.arena.cur, (r.place b).toNat + r.size.toNat < 2 ^ 64
  | .reset => True
  | .clear => True

/-! ## Blocks -/

/-- Two blocks do not overlap. -/
def BlocksApart (b c : Block) : Prop :=
  Apart b.raw.toNat (b.raw.toNat + extent b) c.raw.toNat (c.raw.toNat + extent c)

theorem BlocksApart.symm {b c : Block} (apart : BlocksApart b c) : BlocksApart c b := Or.symm apart

/-- A piece lies in the used part of a block. -/
structure LiesIn (p : Piece) (b : Block) : Prop where
  start : (data b).toNat ≤ p.start.toNat
  stop : p.stop ≤ (data b).toNat + b.off.toNat

/-- The alignment that was asked for, where it is one that can be. -/
def Aligned (p : Piece) : Prop :=
  ∀ k ≤ 6, p.request.align.toNat = 2 ^ k → 2 ^ k ∣ p.start.toNat

def PiecesApart (p q : Piece) : Prop := Apart p.start.toNat p.stop q.start.toNat q.stop

/-- The used bytes of blocks. -/
def usedIn (blocks : List Block) : Nat := (blocks.map fun b => b.off.toNat).sum

def capacity (blocks : List Block) : Nat := (blocks.map fun b => b.cap.toNat).sum

structure Sound (s : Lent) : Prop where
  inside : ∀ b ∈ s.arena.blocks, b.raw.toNat + extent b < 2 ^ 64
  blocks : s.arena.blocks.Pairwise BlocksApart
  filled : ∀ b ∈ s.arena.blocks, b.off.toNat ≤ b.cap.toNat
  used : s.arena.used.toNat = usedIn s.arena.blocks % 2 ^ 64
  pieces : ∀ p ∈ s.pieces, ∃ b ∈ s.arena.blocks, LiesIn p b
  aligned : ∀ p ∈ s.pieces, Aligned p
  apart : s.pieces.Pairwise PiecesApart

theorem sound_new (firstChunk : UInt64) : Sound ⟨new firstChunk, []⟩ where
  inside _ member := absurd member List.not_mem_nil
  blocks := List.Pairwise.nil
  filled _ member := absurd member List.not_mem_nil
  used := rfl
  pieces _ member := absurd member List.not_mem_nil
  aligned _ member := absurd member List.not_mem_nil
  apart := List.Pairwise.nil

theorem Sound.reset {s : Lent} (sound : Sound s) : Sound ⟨s.arena.reset, []⟩ where
  inside b member := by
    obtain ⟨c, there, rfl⟩ := List.mem_map.mp member
    exact sound.inside c there
  blocks := List.pairwise_map.mpr sound.blocks
  filled b member := by
    obtain ⟨c, _, rfl⟩ := List.mem_map.mp member
    exact Nat.zero_le _
  used := by
    have empty : usedIn (Arena.reset s.arena).blocks = 0 := by
      unfold usedIn Arena.reset
      rw [List.map_map]
      exact List.sum_eq_zero fun n member => by
        obtain ⟨b, -, rfl⟩ := List.mem_map.mp member
        rfl
    rw [empty]
    rfl
  pieces _ member := absurd member List.not_mem_nil
  aligned _ member := absurd member List.not_mem_nil
  apart := List.Pairwise.nil

theorem Sound.clear (s : Lent) : Sound ⟨s.arena.clear, []⟩ where
  inside _ member := absurd member List.not_mem_nil
  blocks := List.Pairwise.nil
  filled _ member := absurd member List.not_mem_nil
  used := rfl
  pieces _ member := absurd member List.not_mem_nil
  aligned _ member := absurd member List.not_mem_nil
  apart := List.Pairwise.nil

/-! ## Serving a request -/

/-- The piece that a block hands out for a request. -/
def pieceOf (r : Request) (b : Block) : Piece := ⟨data b + r.place b, r⟩

section Serve

variable {r : Request} {b : Block} (inside : b.raw.toNat + extent b < 2 ^ 64)
  (filled : b.off.toNat ≤ b.cap.toNat)
  (room : (r.place b).toNat + r.size.toNat ≤ b.cap.toNat)

include inside filled room

omit filled in
theorem toNat_bump : (r.bump b).off.toNat = (r.place b).toNat + r.size.toNat := by
  show (r.place b + r.size).toNat = _
  rw [UInt64.toNat_add]
  exact Nat.mod_eq_of_lt (by unfold extent at inside; omega)

omit filled in
theorem toNat_pieceOf : (pieceOf r b).start.toNat = (data b).toNat + (r.place b).toNat := by
  have bounds := data_bounds inside
  have positive := r.size_pos
  show (data b + r.place b).toNat = _
  rw [UInt64.toNat_add]
  exact Nat.mod_eq_of_lt (by unfold extent at inside; omega)

omit filled in
theorem liesIn_pieceOf : LiesIn (pieceOf r b) (r.bump b) where
  start := by
    rw [toNat_pieceOf inside room]
    exact Nat.le_add_right _ _
  stop := by
    unfold Piece.stop
    rw [toNat_pieceOf inside room, toNat_bump inside room]
    show _ ≤ (data b).toNat + _
    show (data b).toNat + (r.place b).toNat + r.size.toNat ≤ _
    omega

theorem aligned_pieceOf : Aligned (pieceOf r b) := by
  intro k small power
  have power : r.align.toNat = 2 ^ k := power
  obtain ⟨j, more, served, limit⟩ : ∃ j, k ≤ j ∧ r.alignment.toNat = 2 ^ j ∧ j ≤ 6 := by
    have value : r.align = UInt64.ofNat (2 ^ k) := by
      rw [← power, UInt64.ofNat_toNat]
    unfold Request.alignment
    rw [value]
    have which : k = 0 ∨ k = 1 ∨ k = 2 ∨ k = 3 ∨ k = 4 ∨ k = 5 ∨ k = 6 := by omega
    rcases which with rfl | rfl | rfl | rfl | rfl | rfl | rfl
    · exact ⟨4, by decide⟩
    · exact ⟨4, by decide⟩
    · exact ⟨4, by decide⟩
    · exact ⟨4, by decide⟩
    · exact ⟨4, by decide⟩
    · exact ⟨5, by decide⟩
    · exact ⟨6, by decide⟩
  rw [toNat_pieceOf inside room]
  refine Nat.dvd_add ?_ ?_
  · exact Nat.dvd_trans (Nat.pow_dvd_pow 2 small) (data_bounds inside).2.2
  · exact Nat.dvd_trans (Nat.pow_dvd_pow 2 more)
      (dvd_alignUp served (place_bounds filled inside r).2)

end Serve

/-- A piece in another block is apart. -/
theorem apart_of_blocks {p q : Piece} {b c : Block} (first : LiesIn p b) (second : LiesIn q c)
    (insideB : b.raw.toNat + extent b < 2 ^ 64) (insideC : c.raw.toNat + extent c < 2 ^ 64)
    (filledB : b.off.toNat ≤ b.cap.toNat) (filledC : c.off.toNat ≤ c.cap.toNat)
    (apart : BlocksApart b c) : PiecesApart p q := by
  have boundsB := data_bounds insideB
  have boundsC := data_bounds insideC
  obtain ⟨startP, stopP⟩ := first
  obtain ⟨startQ, stopQ⟩ := second
  unfold PiecesApart Apart
  rcases apart with before | behind
  · exact .inl (by unfold extent at before; omega)
  · exact .inr (by unfold extent at behind; omega)

theorem usedIn_append (front back : List Block) :
    usedIn (front ++ back) = usedIn front + usedIn back := by
  simp [usedIn]

theorem usedIn_cons (b : Block) (blocks : List Block) :
    usedIn (b :: blocks) = b.off.toNat + usedIn blocks := by
  simp [usedIn]

/-- A block with room serves a request. -/
theorem Sound.serve {s : Lent} (sound : Sound s) {front back : List Block} {b : Block}
    (split : s.arena.blocks = front ++ b :: back) {r : Request}
    (room : (r.place b).toNat + r.size.toNat ≤ b.cap.toNat) {used : UInt64}
    (taken : used = s.arena.used + (r.place b + r.size - b.off)) (cur : Nat) :
    Sound ⟨{ s.arena with blocks := front ++ r.bump b :: back, used := used, cur := cur },
      pieceOf r b :: s.pieces⟩ := by
  have here : b ∈ s.arena.blocks := split ▸ List.mem_append_right _ List.mem_cons_self
  have inside := sound.inside b here
  have filled := sound.filled b here
  have more := (place_bounds filled inside r).1
  have bumped := toNat_bump inside room
  have others {c : Block} (member : c ∈ front ∨ c ∈ back) : c ∈ s.arena.blocks := by
    rw [split]
    rcases member with first | last
    · exact List.mem_append_left _ first
    · exact List.mem_append_right _ (List.mem_cons_of_mem _ last)
  have which {c : Block} : c ∈ front ++ r.bump b :: back ↔
      c = r.bump b ∨ (c ∈ front ∨ c ∈ back) := by
    rw [List.mem_append, List.mem_cons]
    exact or_left_comm
  have apart {c : Block} (member : c ∈ front ∨ c ∈ back) : BlocksApart b c := by
    have all := sound.blocks
    rw [split, List.pairwise_append] at all
    rcases member with first | last
    · exact (all.2.2 c first b List.mem_cons_self).symm
    · exact List.rel_of_pairwise_cons all.2.1 last
  refine ⟨?_, ?_, ?_, ?_, ?_, ?_, ?_⟩
  · intro c member
    rcases which.mp member with rfl | other
    · exact inside
    · exact sound.inside c (others other)
  · have all := sound.blocks
    rw [split] at all
    show (front ++ r.bump b :: back).Pairwise BlocksApart
    rw [List.pairwise_append, List.pairwise_cons] at all ⊢
    exact ⟨all.1, ⟨fun c last => all.2.1.1 c last, all.2.1.2⟩, fun c first d member => by
      rcases List.mem_cons.mp member with rfl | last
      · exact all.2.2 c first b List.mem_cons_self
      · exact all.2.2 c first d (List.mem_cons_of_mem _ last)⟩
  · intro c member
    rcases which.mp member with rfl | other
    · rw [bumped]
      exact room
    · exact sound.filled c (others other)
  · -- the used bytes grow by what the offset of the block grows by
    have grown : (r.place b + r.size - b.off).toNat =
        (r.place b).toNat + r.size.toNat - b.off.toNat := by
      have sum : (r.place b + r.size).toNat = (r.place b).toNat + r.size.toNat := bumped
      rw [UInt64.toNat_sub_of_le _ _ (UInt64.le_iff_toNat_le.mpr (by rw [sum]; omega)), sum]
    have before := sound.used
    rw [split, usedIn_append, usedIn_cons] at before
    show used.toNat = usedIn (front ++ r.bump b :: back) % 2 ^ 64
    rw [taken, UInt64.toNat_add, grown, before, usedIn_append, usedIn_cons, bumped]
    omega
  · refine List.forall_mem_cons.mpr ⟨⟨r.bump b, which.mpr (.inl rfl),
      liesIn_pieceOf inside room⟩, fun p member => ?_⟩
    obtain ⟨c, there, lies⟩ := sound.pieces p member
    rw [split, List.mem_append, List.mem_cons] at there
    rcases there with first | rfl | last
    · exact ⟨c, which.mpr (.inr (.inl first)), lies⟩
    · refine ⟨r.bump c, which.mpr (.inl rfl), lies.start, Nat.le_trans lies.stop ?_⟩
      rw [bumped]
      show (data c).toNat + _ ≤ (data c).toNat + _
      omega
    · exact ⟨c, which.mpr (.inr (.inr last)), lies⟩
  · exact List.forall_mem_cons.mpr ⟨aligned_pieceOf inside filled room, sound.aligned⟩
  · refine List.pairwise_cons.mpr ⟨fun p member => ?_, sound.apart⟩
    obtain ⟨c, there, lies⟩ := sound.pieces p member
    rw [split, List.mem_append, List.mem_cons] at there
    rcases there with first | rfl | last
    · exact apart_of_blocks (liesIn_pieceOf inside room) lies inside
        (sound.inside c (others (.inl first))) (by rw [bumped]; exact room)
        (sound.filled c (others (.inl first))) (apart (.inl first))
    · refine .inr (Nat.le_trans lies.stop ?_)
      rw [toNat_pieceOf inside room]
      omega
    · exact apart_of_blocks (liesIn_pieceOf inside room) lies inside
        (sound.inside c (others (.inr last))) (by rw [bumped]; exact room)
        (sound.filled c (others (.inr last))) (apart (.inr last))

/-- A new block. -/
theorem Sound.grow {malloc : Malloc} (lawful : Lawful malloc) {s : Lent} (sound : Sound s)
    {need : UInt64} {b : Block} {next : Arena}
    (grew : Arena.grow malloc s.arena need = (some b, next)) : Sound ⟨next, s.pieces⟩ := by
  obtain ⟨answered, empty, -, limit, blocks, -, used, -⟩ := grow_eq_some grew
  have size : (header + b.cap + kAlign - 1).toNat = extent b := by
    have first : (header + b.cap).toNat = 32 + b.cap.toNat := by
      rw [UInt64.toNat_add]
      exact Nat.mod_eq_of_lt (by show 32 + b.cap.toNat < 2 ^ 64; omega)
    have second : (header + b.cap + kAlign).toNat = 96 + b.cap.toNat := by
      rw [UInt64.toNat_add, first]
      show (32 + b.cap.toNat + 64) % 2 ^ 64 = _
      rw [Nat.mod_eq_of_lt (by omega)]
      omega
    rw [UInt64.toNat_sub_of_le _ _ (UInt64.le_iff_toNat_le.mpr (by
      rw [second]; show 1 ≤ 96 + b.cap.toNat; omega)), second]
    show 96 + b.cap.toNat - 1 = b.cap.toNat + 95
    omega
  have inside := lawful.inside answered
  have fresh := lawful.fresh answered
  rw [size] at inside
  refine ⟨?_, ?_, ?_, ?_, ?_, sound.aligned, sound.apart⟩
  · rw [blocks]
    exact List.forall_mem_cons.mpr ⟨inside, sound.inside⟩
  · rw [blocks]
    refine List.pairwise_cons.mpr ⟨fun c member => ?_, sound.blocks⟩
    have apart := fresh c member
    rw [size] at apart
    exact apart
  · rw [blocks]
    refine List.forall_mem_cons.mpr ⟨?_, sound.filled⟩
    rw [empty]
    exact Nat.zero_le _
  · rw [blocks, used, usedIn_cons, empty]
    show _ = (0 + usedIn s.arena.blocks) % 2 ^ 64
    rw [Nat.zero_add]
    exact sound.used
  · intro p member
    obtain ⟨c, there, lies⟩ := sound.pieces p member
    exact ⟨c, blocks ▸ List.mem_cons_of_mem _ there, lies⟩

/-! ## Runs of an arena -/

/-- A request that a block has room for, where the sum does not wrap around. -/
theorem room_of_fits {r : Request} {b : Block} (fits : r.fits b = true)
    (small : (r.place b).toNat + r.size.toNat < 2 ^ 64) :
    (r.place b).toNat + r.size.toNat ≤ b.cap.toNat := by
  have room := UInt64.le_iff_toNat_le.mp (of_decide_eq_true fits)
  rwa [UInt64.toNat_add, Nat.mod_eq_of_lt small] at room

/-- A new block has room for the request it was made for. -/
theorem room_of_new {r : Request} {b : Block} (empty : b.off = 0) (enough : r.size ≤ b.cap) :
    (r.place b).toNat + r.size.toNat ≤ b.cap.toNat := by
  have start : (r.place b).toNat = 0 := by
    unfold Request.place
    rw [empty]
    obtain ⟨low, high⟩ := r.alignment_bounds
    rw [toNat_alignUp (by omega) (by show 0 + r.alignment.toNat ≤ _; omega)]
    show 0 + (r.alignment.toNat - 1) - ((0 + (r.alignment.toNat - 1)) &&& (r.alignment.toNat - 1)) = 0
    rw [Nat.zero_add, Nat.and_self, Nat.sub_self]
  rw [start, Nat.zero_add]
  exact UInt64.le_iff_toNat_le.mp enough

theorem Sound.perform {malloc : Malloc} (lawful : Lawful malloc) {s next : Lent} (sound : Sound s)
    {op : ArenaOp} (small : NoWrap s op) (performed : perform malloc s op = some next) :
    Sound next := by
  cases op with
  | reset =>
      cases performed
      exact sound.reset
  | clear =>
      cases performed
      exact Sound.clear s
  | alloc r =>
      have done := allocates malloc s.arena r
      unfold Arena.perform at performed
      dsimp only at performed
      generalize alloc malloc s.arena r = result at performed done
      obtain ⟨start, arena⟩ := result
      cases performed
      cases done with
      | served newer before b after cursor blocks full room =>
          have here : b ∈ s.arena.blocks.drop s.arena.cur := by
            have rest : s.arena.blocks.drop s.arena.cur = before ++ b :: after := by
              have whole := List.take_append_drop s.arena.cur s.arena.blocks
              rw [← cursor] at whole
              exact List.append_cancel_left (whole.trans blocks)
            rw [rest]
            exact List.mem_append_right _ List.mem_cons_self
          have served := @Sound.serve _ sound (newer ++ before) after b
            (by rw [blocks, List.append_assoc]) r (room_of_fits room (small b here)) _ rfl
            (s.arena.cur + before.length)
          rw [List.append_assoc] at served
          exact served
      | grown b next full grew =>
          obtain ⟨-, empty, enough, -, blocks, -, -, -⟩ := grow_eq_some grew
          have served := @Sound.serve _ (sound.grow lawful grew) [] next.blocks.tail
            b (by rw [blocks]; rfl) r (room_of_new empty enough)
            (next.used + (r.place b + r.size)) (by rw [empty, UInt64.sub_zero]) next.cur
          exact served
      | refused next full grew =>
          obtain ⟨blocks, -, used, -, -⟩ := grow_eq_none grew
          exact ⟨blocks ▸ sound.inside, blocks ▸ sound.blocks, blocks ▸ sound.filled,
            by rw [used, blocks]; exact sound.used, blocks ▸ sound.pieces, sound.aligned,
            sound.apart⟩

theorem usedIn_le_capacity {blocks : List Block}
    (filled : ∀ b ∈ blocks, b.off.toNat ≤ b.cap.toNat) : usedIn blocks ≤ capacity blocks :=
  List.sum_le_sum filled

/-- What is promised of the pieces that are lent out. -/
structure WellLent (s : Lent) : Prop where
  inside : ∀ p ∈ s.pieces, ∃ b ∈ s.arena.blocks, (data b).toNat ≤ p.start.toNat ∧
    p.stop ≤ (data b).toNat + b.cap.toNat
  aligned : ∀ p ∈ s.pieces, Aligned p
  apart : s.pieces.Pairwise PiecesApart
  used : s.arena.used.toNat ≤ capacity s.arena.blocks

theorem Sound.wellLent {s : Lent} (sound : Sound s) : WellLent s where
  inside p member := by
    obtain ⟨b, there, lies⟩ := sound.pieces p member
    have filled := sound.filled b there
    exact ⟨b, there, lies.start, Nat.le_trans lies.stop (by omega)⟩
  aligned := sound.aligned
  apart := sound.apart
  used := by
    rw [sound.used]
    exact Nat.le_trans (Nat.mod_le _ _) (usedIn_le_capacity sound.filled)

/-- **Pieces do not overlap.**  After any requests, resets and clears, as long as no sum wraps
around in a request, every piece lies aligned in a block, apart from all others, and no more bytes
are in use than the blocks hold. -/
theorem pieces_apart {malloc : Malloc} (lawful : Lawful malloc) {firstChunk : UInt64}
    {ops : List ArenaOp} {reached : Lent}
    (small : Transition.Meets (perform malloc) NoWrap ⟨new firstChunk, []⟩ ops)
    (ran : Transition.run (perform malloc) ⟨new firstChunk, []⟩ ops = some reached) :
    WellLent reached := by
  have preserved {s next : Lent} {op : ArenaOp} (sound : Sound s) (small : NoWrap s op)
      (performed : perform malloc s op = some next) : Sound next :=
    sound.perform lawful small performed
  exact (Transition.run_invariant preserved (sound_new firstChunk) small ran).wellLent

/-! ## Sums that wrap around -/

instance (start stop start' stop' : Nat) : Decidable (Apart start stop start' stop') :=
  inferInstanceAs (Decidable (_ ∨ _))

instance (p q : Piece) : Decidable (PiecesApart p q) :=
  inferInstanceAs (Decidable (Apart _ _ _ _))

instance (s : Lent) : (op : ArenaOp) → Decidable (NoWrap s op)
  | .alloc _ => inferInstanceAs (Decidable (∀ b ∈ s.arena.blocks.drop s.arena.cur, _ < _))
  | .reset => isTrue trivial
  | .clear => isTrue trivial

/-- A system that answers at addresses far from each other, where nothing else is. -/
def sparse : Malloc := fun k blocks size =>
  let raw : UInt64 := 0x100000 * UInt64.ofNat (k + 1)
  if raw.toNat + size.toNat < 2 ^ 64 ∧ ∀ b ∈ blocks,
      Apart raw.toNat (raw.toNat + size.toNat) b.raw.toNat (b.raw.toNat + extent b) then some raw
  else none

theorem lawful_sparse : Lawful sparse where
  inside answered := by
    unfold sparse at answered
    dsimp only at answered
    split at answered
    · next free =>
        cases answered
        exact free.1
    · cases answered
  fresh answered := by
    unfold sparse at answered
    dsimp only at answered
    split at answered
    · next free =>
        cases answered
        exact free.2
    · cases answered

theorem pieces_apart_twice :
    ∃ reached, Transition.run (perform sparse) ⟨new kDefaultChunk, []⟩
        [.alloc ⟨100, 16⟩, .alloc ⟨20000, 64⟩, .reset, .alloc ⟨5, 8⟩, .alloc ⟨7, 1⟩] = some reached ∧
      reached.pieces.length = 2 ∧ WellLent reached :=
  ⟨_, rfl, by decide +kernel, @pieces_apart sparse lawful_sparse kDefaultChunk
    ([.alloc ⟨100, 16⟩, .alloc ⟨20000, 64⟩, .reset, .alloc ⟨5, 8⟩, .alloc ⟨7, 1⟩]) _
    (by decide +kernel) rfl⟩

/-- A small request, one for nearly all of memory and a small one. -/
def hugeOps : List ArenaOp :=
  [.alloc ⟨100, 16⟩, .alloc ⟨0xFFFFFFFFFFFFFFF0, 16⟩, .alloc ⟨16, 16⟩]

/-- **A huge request is served, and the piece behind it overlaps the first one.** -/
theorem huge_request_overlaps :
    ∃ reached, Transition.run (perform sparse) ⟨new kDefaultChunk, []⟩ hugeOps = some reached ∧
      reached.pieces.map (fun p => (p.start, p.request.n)) =
        [(0x1000A0, 16), (0x1000B0, 0xFFFFFFFFFFFFFFF0), (0x100040, 100)] ∧
      ¬WellLent reached :=
  ⟨_, rfl, by decide +kernel, fun well => absurd well.apart (by decide +kernel)⟩

end Opencodepp.Core.Arena
