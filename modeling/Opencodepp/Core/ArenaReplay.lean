import Mathlib.Logic.Function.Iterate
import Mathlib.Tactic.IntervalCases
import Opencodepp.Core.ArenaPieces

/-!
# Playing the same requests again

After `reset` the blocks are filled from the newest to the oldest, in the reverse of the order in
which they were made, and the cursor does not go back.  Requests pack into blocks when they can be
cut into runs, one for each block, that find room in the blocks one behind the other.  The arena
leaves no request over where they pack (`leftOver_of_packs`): it is never behind such runs.
`replay_steady` says that playing requests again asks for no new block, however often, if they
pack into the blocks of the first play.
-/

set_option autoImplicit false

namespace Opencodepp.Core.Arena

open Opencodepp.Library

/-! ## Plays -/

/-- An arena after some requests. -/
def play (malloc : Malloc) (a : Arena) (requests : List Request) : Arena :=
  requests.foldl (fun a r => (alloc malloc a r).2) a

/-- An arena after it was reset and the requests were made again. -/
def replay (malloc : Malloc) (requests : List Request) (a : Arena) : Arena :=
  play malloc a.reset requests

/-- An arena after a first play and `k` replays. -/
def later (malloc : Malloc) (a : Arena) (requests : List Request) (k : Nat) : Arena :=
  (replay malloc requests)^[k] (play malloc a requests)

/-- Blocks with nothing in them. -/
def emptied (blocks : List Block) : List Block := blocks.map fun b => { b with off := 0 }

/-- The requests that find no room when blocks are filled in order, from where the last request
found room on. -/
def leftOver (blocks : List Block) : List Request → List Request
  | [] => []
  | r :: rest =>
      match walk r blocks with
      | some (i, b) => leftOver (r.bump b :: blocks.drop (i + 1)) rest
      | none => r :: leftOver blocks rest

/-- A request for which no block can be made. -/
def TooLarge (r : Request) : Prop := 0xFFFFFFFFFFFFFFFF - header - kAlign < r.size

instance (r : Request) : Decidable (TooLarge r) := inferInstanceAs (Decidable (_ < _))

/-- The blocks have room for the requests, as far as blocks can have. -/
def Reusable (blocks : List Block) (requests : List Request) : Prop :=
  ∀ r ∈ leftOver (emptied blocks) requests, TooLarge r

/-- An arena has the blocks of another one, whatever is in them. -/
structure SameBlocks (a b : Arena) : Prop where
  blocks : emptied a.blocks = emptied b.blocks
  total : a.total = b.total
  nblocks : a.nblocks = b.nblocks

theorem SameBlocks.trans {a b c : Arena} (first : SameBlocks a b) (second : SameBlocks b c) :
    SameBlocks a c :=
  ⟨first.blocks.trans second.blocks, first.total.trans second.total,
    first.nblocks.trans second.nblocks⟩

theorem emptied_emptied (blocks : List Block) : emptied (emptied blocks) = emptied blocks := by
  unfold emptied
  rw [List.map_map]
  rfl

theorem sameBlocks_reset (a : Arena) : SameBlocks a.reset a :=
  ⟨emptied_emptied a.blocks, rfl, rfl⟩

/-! ## One request -/

section Step

variable (malloc : Malloc) (a : Arena) {r : Request}

/-- A request that finds room changes one block, to which the cursor moves. -/
theorem alloc_of_walk {i : Nat} {b : Block} (found : walk r (a.blocks.drop a.cur) = some (i, b)) :
    SameBlocks (alloc malloc a r).2 a ∧
      (alloc malloc a r).2.blocks.drop (alloc malloc a r).2.cur =
        r.bump b :: (a.blocks.drop a.cur).drop (i + 1) := by
  obtain ⟨before, after, rest, length, -, -⟩ := walk_eq_some found
  have here : a.blocks[a.cur + i]? = some b := by
    rw [← List.getElem?_drop, rest, ← length]
    simp
  obtain ⟨inside, get⟩ := List.getElem?_eq_some_iff.mp here
  unfold alloc
  rw [found]
  refine ⟨⟨?_, rfl, rfl⟩, ?_⟩
  · show (a.blocks.set (a.cur + i) (r.bump b)).map _ = a.blocks.map _
    conv_rhs => rw [← List.set_getElem_self inside, get]
    rw [List.map_set, List.map_set]
    rfl
  · show (a.blocks.set (a.cur + i) (r.bump b)).drop (a.cur + i) = _
    rw [List.drop_set, if_neg (Nat.lt_irrefl _), Nat.sub_self, List.drop_eq_getElem_cons inside,
      List.set_cons_zero, List.drop_drop, Nat.add_assoc]

/-- A request without room that is too large leaves the blocks as they are. -/
theorem alloc_of_tooLarge (full : walk r (a.blocks.drop a.cur) = none) (large : TooLarge r) :
    SameBlocks (alloc malloc a r).2 a ∧
      (alloc malloc a r).2.blocks.drop (alloc malloc a r).2.cur = a.blocks.drop a.cur := by
  have beyond : 0xFFFFFFFFFFFFFFFF - header - kAlign < chunkFor a r.size := by
    unfold chunkFor
    split
    · exact large
    · next enough => exact UInt64.lt_of_lt_of_le large (UInt64.not_lt.mp enough)
  have grew : grow malloc a r.size = (none, { a with nextCap := nextChunk a.nextCap }) := by
    unfold grow
    exact if_pos beyond
  unfold alloc
  rw [full]
  dsimp only
  rw [grew]
  exact ⟨⟨rfl, rfl, rfl⟩, rfl⟩

/-- No request takes a block away. -/
theorem nblocks_alloc_le (r : Request) : a.nblocks ≤ (alloc malloc a r).2.nblocks := by
  have allocated := allocates malloc a r
  generalize (alloc malloc a r).1 = result, (alloc malloc a r).2 = after_ at allocated
  cases allocated with
  | served => exact Nat.le_refl _
  | grown b next full grew =>
      show a.nblocks ≤ next.nblocks
      rw [(grow_eq_some grew).2.2.2.2.2.2.2]
      exact Nat.le_succ _
  | refused next full grew => exact Nat.le_of_eq (grow_eq_none grew).2.2.2.2.symm

end Step

theorem nblocks_play_le (malloc : Malloc) (requests : List Request) : ∀ a : Arena,
    a.nblocks ≤ (play malloc a requests).nblocks := by
  induction requests with
  | nil => exact fun a => Nat.le_refl _
  | cons r rest inductionHypothesis =>
      exact fun a => (nblocks_alloc_le malloc a r).trans (inductionHypothesis _)

/-- A play that has only too large requests left over keeps the blocks. -/
theorem sameBlocks_play (malloc : Malloc) (requests : List Request) : ∀ a : Arena,
    (∀ r ∈ leftOver (a.blocks.drop a.cur) requests, TooLarge r) →
      SameBlocks (play malloc a requests) a := by
  induction requests with
  | nil => exact fun a _ => ⟨rfl, rfl, rfl⟩
  | cons r rest inductionHypothesis =>
      intro a large
      unfold leftOver at large
      cases found : walk r (a.blocks.drop a.cur) with
      | some place =>
          obtain ⟨i, b⟩ := place
          rw [found] at large
          obtain ⟨same, cursor⟩ := alloc_of_walk malloc a found
          exact (inductionHypothesis _ (cursor ▸ large)).trans same
      | none =>
          rw [found] at large
          obtain ⟨first, others⟩ := List.forall_mem_cons.mp large
          obtain ⟨same, cursor⟩ := alloc_of_tooLarge malloc a found first
          exact (inductionHypothesis _ (cursor ▸ others)).trans same

/-- Replays of reusable blocks keep the blocks. -/
theorem sameBlocks_later {malloc : Malloc} {a : Arena} {requests : List Request}
    (reusable : Reusable (play malloc a requests).blocks requests) (k : Nat) :
    SameBlocks (later malloc a requests k) (play malloc a requests) := by
  induction k with
  | zero => exact ⟨rfl, rfl, rfl⟩
  | succ k inductionHypothesis =>
      have again : SameBlocks (replay malloc requests (later malloc a requests k))
          (later malloc a requests k).reset := by
        refine sameBlocks_play malloc requests _ ?_
        show ∀ r ∈ leftOver (emptied (later malloc a requests k).blocks) requests, TooLarge r
        rw [inductionHypothesis.blocks]
        exact reusable
      have step : later malloc a requests (k + 1) =
          replay malloc requests (later malloc a requests k) :=
        Function.iterate_succ_apply' ..
      rw [step]
      exact again.trans ((sameBlocks_reset _).trans inductionHypothesis)

/-! ## The converse -/

/-- No request of a play is refused but those that are too large: the system does not run out of
memory. -/
def Served (malloc : Malloc) (a : Arena) : List Request → Prop
  | [] => True
  | r :: rest =>
      (¬TooLarge r → (alloc malloc a r).1.isSome) ∧ Served malloc (alloc malloc a r).2 rest

/-- A request without room that is served has a new block. -/
theorem nblocks_alloc_of_served {malloc : Malloc} {a : Arena} {r : Request}
    (full : walk r (a.blocks.drop a.cur) = none) (served : (alloc malloc a r).1.isSome) :
    (alloc malloc a r).2.nblocks = a.nblocks + 1 := by
  unfold alloc at served ⊢
  rw [full] at served ⊢
  dsimp only at served ⊢
  generalize grew : grow malloc a r.size = result at served ⊢
  obtain ⟨block, next⟩ := result
  cases block with
  | none => cases served
  | some b => exact (grow_eq_some grew).2.2.2.2.2.2.2

/-- A play that asks for no new block has only too large requests left over. -/
theorem tooLarge_of_leftOver {malloc : Malloc} (requests : List Request) : ∀ {a : Arena},
    Served malloc a requests → (play malloc a requests).nblocks = a.nblocks →
      ∀ r ∈ leftOver (a.blocks.drop a.cur) requests, TooLarge r := by
  induction requests with
  | nil => exact fun _ _ r member => absurd member List.not_mem_nil
  | cons r rest inductionHypothesis =>
      intro a served kept
      obtain ⟨first, others⟩ := served
      unfold leftOver
      cases found : walk r (a.blocks.drop a.cur) with
      | some place =>
          obtain ⟨i, b⟩ := place
          obtain ⟨same, cursor⟩ := alloc_of_walk malloc a found
          have tail := inductionHypothesis others (kept.trans same.nblocks.symm)
          rwa [cursor] at tail
      | none =>
          by_cases large : TooLarge r
          · obtain ⟨same, cursor⟩ := alloc_of_tooLarge malloc a found large
            have tail := inductionHypothesis others (kept.trans same.nblocks.symm)
            rw [cursor] at tail
            exact List.forall_mem_cons.mpr ⟨large, tail⟩
          · have more := nblocks_alloc_of_served found (first large)
            have most : (alloc malloc a r).2.nblocks ≤ (play malloc a (r :: rest)).nblocks :=
              nblocks_play_le malloc rest _
            omega

/-! ## Requests that pack -/

/-- The next multiple of an alignment. -/
def roundUp (pos align : Nat) : Nat := (pos + (align - 1)) / align * align

/-- Requests that are laid one behind the other, each at its alignment, end within a capacity. -/
def RoomFor (cap : Nat) : Nat → List Request → Prop
  | _, [] => True
  | pos, r :: rest =>
      roundUp pos r.alignment.toNat + r.size.toNat ≤ cap ∧
        RoomFor cap (roundUp pos r.alignment.toNat + r.size.toNat) rest

instance (cap : Nat) : ∀ (pos : Nat) (run : List Request), Decidable (RoomFor cap pos run)
  | _, [] => isTrue trivial
  | pos, r :: rest =>
      have := instDecidableRoomFor cap (roundUp pos r.alignment.toNat + r.size.toNat) rest
      inferInstanceAs (Decidable (_ ∧ _))

/-- Requests can be cut into runs, one for each block in order, with room in the blocks behind
what is used of them; a run may be empty. -/
def Packs (blocks : List Block) (requests : List Request) : Prop :=
  ∃ runs : List (List Request), runs.flatten = requests ∧
    List.Forall₂ (fun b run => RoomFor b.cap.toNat b.off.toNat run) blocks runs

/-- A request whose alignment is a power of two, and for which a block can be made. -/
structure Regular (r : Request) : Prop where
  power : ∃ k, r.alignment.toNat = 2 ^ k
  size : ¬TooLarge r

theorem le_roundUp {align : Nat} (some_ : 0 < align) (pos : Nat) : pos ≤ roundUp pos align := by
  have whole := Nat.div_add_mod (pos + (align - 1)) align
  have rest := Nat.mod_lt (pos + (align - 1)) some_
  rw [Nat.mul_comm] at whole
  unfold roundUp
  omega

theorem roundUp_mono {pos pos' : Nat} (ahead : pos ≤ pos') (align : Nat) :
    roundUp pos align ≤ roundUp pos' align :=
  Nat.mul_le_mul_right _ (Nat.div_le_div_right (Nat.add_le_add_right ahead _))

/-- There is room from any earlier place on. -/
theorem RoomFor.mono {cap : Nat} {run : List Request} : ∀ {pos pos' : Nat}, pos ≤ pos' →
    RoomFor cap pos' run → RoomFor cap pos run := by
  induction run with
  | nil => exact fun _ _ => trivial
  | cons r rest inductionHypothesis =>
      intro pos pos' ahead room
      have next := Nat.add_le_add_right (roundUp_mono ahead r.alignment.toNat) r.size.toNat
      exact ⟨next.trans room.1, inductionHypothesis next room.2⟩

theorem RoomFor.tail {cap pos : Nat} {r : Request} {rest : List Request}
    (room : RoomFor cap pos (r :: rest)) : RoomFor cap pos rest := by
  have some_ : 0 < r.alignment.toNat := Nat.lt_of_lt_of_le (by decide) r.alignment_bounds.1
  exact room.2.mono ((le_roundUp some_ pos).trans (Nat.le_add_right _ _))

/-- Requests still pack without the first one. -/
theorem Packs.tail {blocks : List Block} {r : Request} {rest : List Request}
    (packs : Packs blocks (r :: rest)) : Packs blocks rest := by
  obtain ⟨runs, whole, rooms⟩ := packs
  induction rooms with
  | nil => cases whole
  | @cons b run blocks runs room rooms inductionHypothesis =>
      cases run with
      | nil =>
          obtain ⟨runs', whole', rooms'⟩ := inductionHypothesis whole
          exact ⟨[] :: runs', whole', .cons room rooms'⟩
      | cons r' run =>
          obtain ⟨rfl, later⟩ := List.cons.inj whole
          exact ⟨run :: runs, later, .cons room.tail rooms⟩

/-- The place of a request in a block, as long as it is at most the largest offset. -/
theorem toNat_place {r : Request} {b : Block} (power : ∃ k, r.alignment.toNat = 2 ^ k)
    (small : b.off.toNat + r.alignment.toNat ≤ 2 ^ 64) :
    (r.place b).toNat = roundUp b.off.toNat r.alignment.toNat := by
  obtain ⟨k, power⟩ := power
  unfold Request.place roundUp
  rw [toNat_alignUp_pow power small, power]
  have whole := Nat.div_add_mod (b.off.toNat + (2 ^ k - 1)) (2 ^ k)
  rw [Nat.mul_comm] at whole
  omega

/-- A block has room for a request where the sizes say so; nothing wraps around then. -/
theorem fits_of_room {r : Request} {b : Block} (power : ∃ k, r.alignment.toNat = 2 ^ k)
    (room : roundUp b.off.toNat r.alignment.toNat + r.size.toNat ≤ b.cap.toNat) :
    r.fits b = true ∧
      (r.bump b).off.toNat = roundUp b.off.toNat r.alignment.toNat + r.size.toNat := by
  obtain ⟨low, high⟩ := r.alignment_bounds
  have before : b.off.toNat ≤ roundUp b.off.toNat r.alignment.toNat := le_roundUp (by omega) _
  have cap := b.cap.toNat_lt
  have small : b.off.toNat + r.alignment.toNat ≤ 2 ^ 64 := by
    obtain ⟨k, same⟩ := power
    have below : k < 7 := (Nat.pow_lt_pow_iff_right (by decide : 1 < 2)).mp (by omega)
    have size := r.size_pos
    unfold roundUp at room
    rw [same] at low high room ⊢
    interval_cases k <;> omega
  have sum : (r.place b + r.size).toNat =
      roundUp b.off.toNat r.alignment.toNat + r.size.toNat := by
    rw [UInt64.toNat_add, toNat_place power small]
    exact Nat.mod_eq_of_lt (by omega)
  refine ⟨decide_eq_true (UInt64.le_iff_toNat_le.mpr ?_), sum⟩
  rw [sum]
  exact room

/-- **The arena is never behind**: where requests pack, the first one finds room, and the others
pack into what is left. -/
theorem Packs.walk {r : Request} {rest : List Request} (power : ∃ k, r.alignment.toNat = 2 ^ k) :
    ∀ {blocks : List Block}, Packs blocks (r :: rest) → ∃ i b,
      Arena.walk r blocks = some (i, b) ∧ Packs (r.bump b :: blocks.drop (i + 1)) rest := by
  intro blocks
  induction blocks with
  | nil =>
      rintro ⟨runs, whole, rooms⟩
      cases rooms
      cases whole
  | cons b older inductionHypothesis =>
      rintro ⟨_, whole, packed⟩
      obtain ⟨run, runs, room, rooms, rfl⟩ := List.forall₂_cons_left_iff.mp packed
      unfold Arena.walk
      by_cases fits : r.fits b = true
      · refine ⟨0, b, if_pos fits, ?_⟩
        cases run with
        | nil =>
            -- the request fits where the runs have none, and the runs for the others remain
            obtain ⟨runs', whole', rooms'⟩ := Packs.tail ⟨runs, whole, rooms⟩
            exact ⟨[] :: runs', whole', .cons trivial rooms'⟩
        | cons r' run =>
            obtain ⟨rfl, later⟩ := List.cons.inj whole
            refine ⟨run :: runs, later, .cons ?_ rooms⟩
            rw [(fits_of_room power room.1).2]
            exact room.2
      · rw [if_neg fits]
        cases run with
        | nil =>
            obtain ⟨i, c, found, packs⟩ := inductionHypothesis ⟨runs, whole, rooms⟩
            exact ⟨i + 1, c, by rw [found]; rfl, packs⟩
        | cons r' run =>
            obtain ⟨rfl, -⟩ := List.cons.inj whole
            exact absurd (fits_of_room power room.1).1 fits

/-- Requests that pack leave none over. -/
theorem leftOver_of_packs {requests : List Request} (regular : ∀ r ∈ requests, Regular r) :
    ∀ {blocks : List Block}, Packs blocks requests → leftOver blocks requests = [] := by
  induction requests with
  | nil => exact fun _ => rfl
  | cons r rest inductionHypothesis =>
      intro blocks packs
      obtain ⟨first, others⟩ := List.forall_mem_cons.mp regular
      obtain ⟨i, b, found, later⟩ := packs.walk first.power
      unfold leftOver
      rw [found]
      exact inductionHypothesis others later

/-- No sum of a place in a block and the size of a request wraps around. -/
def NoSumWraps (blocks : List Block) (requests : List Request) : Prop :=
  ∀ b ∈ blocks, ∀ r ∈ requests, b.cap.toNat + 64 + r.size.toNat ≤ 2 ^ 64

/-- A block has room only where the sizes say so, when the sum does not wrap around. -/
theorem sizes_of_fits {r : Request} {b : Block} (power : ∃ k, r.alignment.toNat = 2 ^ k)
    (filled : b.off.toNat ≤ b.cap.toNat) (small : b.cap.toNat + 64 + r.size.toNat ≤ 2 ^ 64)
    (fits : r.fits b = true) :
    roundUp b.off.toNat r.alignment.toNat + r.size.toNat ≤ b.cap.toNat := by
  obtain ⟨low, high⟩ := r.alignment_bounds
  have place := toNat_place (r := r) (b := b) power (by omega)
  have bound : (r.place b).toNat ≤ b.off.toNat + (r.alignment.toNat - 1) :=
    alignUp_le (by omega) (by omega)
  have enough := UInt64.le_iff_toNat_le.mp (of_decide_eq_true fits)
  rw [UInt64.toNat_add, Nat.mod_eq_of_lt (by omega), place] at enough
  exact enough

theorem packs_nil (blocks : List Block) : Packs blocks [] := by
  induction blocks with
  | nil => exact ⟨[], rfl, .nil⟩
  | cons b blocks inductionHypothesis =>
      obtain ⟨runs, whole, rooms⟩ := inductionHypothesis
      exact ⟨[] :: runs, whole, .cons trivial rooms⟩

/-- Where no request is left over and no sum wraps around, the requests pack: the blocks that
served them are the cut. -/
theorem packs_of_leftOver {requests : List Request} (regular : ∀ r ∈ requests, Regular r) :
    ∀ {blocks : List Block}, (∀ b ∈ blocks, b.off.toNat ≤ b.cap.toNat) →
      NoSumWraps blocks requests → leftOver blocks requests = [] → Packs blocks requests := by
  induction requests with
  | nil => exact fun _ _ _ => packs_nil _
  | cons r rest inductionHypothesis =>
      intro blocks filled small none_
      obtain ⟨first, others⟩ := List.forall_mem_cons.mp regular
      unfold leftOver at none_
      cases found : Arena.walk r blocks with
      | none =>
          rw [found] at none_
          cases none_
      | some served =>
          obtain ⟨i, b⟩ := served
          rw [found] at none_
          obtain ⟨before, after, rfl, rfl, -, fits⟩ := walk_eq_some found
          have member : b ∈ before ++ b :: after := by simp
          have room := sizes_of_fits first.power (filled b member)
            (small b member r List.mem_cons_self) fits
          have offset := (fits_of_room first.power room).2
          have behind : (before ++ b :: after).drop (before.length + 1) = after := by simp
          dsimp only at none_
          rw [behind] at none_
          obtain ⟨_, whole, packed⟩ :=
            inductionHypothesis others
              (List.forall_mem_cons.mpr ⟨offset ▸ room, fun c later => filled c (by simp [later])⟩)
              (fun c there r' member' => by
                rcases List.mem_cons.mp there with rfl | later
                · exact small b member r' (List.mem_cons_of_mem _ member')
                · exact small c (by simp [later]) r' (List.mem_cons_of_mem _ member'))
              none_
          obtain ⟨run, runs, first_, rooms, rfl⟩ := List.forall₂_cons_left_iff.mp packed
          obtain ⟨empties, nothing, rooms'⟩ := packs_nil before
          refine ⟨empties ++ (r :: run) :: runs, ?_, ?_⟩
          · rw [List.flatten_append, nothing, List.nil_append, List.flatten_cons, List.cons_append,
              ← whole, List.flatten_cons]
          · refine List.rel_append rooms' (.cons ⟨room, ?_⟩ rooms)
            rw [offset] at first_
            exact first_

/-! ## Steady replays -/

/-- A replay has as many blocks and as much memory as the first play. -/
def Steady (malloc : Malloc) (a : Arena) (requests : List Request) (k : Nat) : Prop :=
  (later malloc a requests k).nblocks = (play malloc a requests).nblocks ∧
    (later malloc a requests k).total = (play malloc a requests).total

theorem subset_leftOver (requests : List Request) : ∀ blocks : List Block,
    leftOver blocks requests ⊆ requests := by
  induction requests with
  | nil => exact fun _ => List.Subset.refl _
  | cons r rest inductionHypothesis =>
      intro blocks
      unfold leftOver
      split
      · exact List.subset_cons_of_subset _ (inductionHypothesis _)
      · exact List.cons_subset_cons _ (inductionHypothesis _)

theorem reusable_of_packs {blocks : List Block} {requests : List Request}
    (regular : ∀ r ∈ requests, Regular r) (packs : Packs (emptied blocks) requests) :
    Reusable blocks requests := by
  unfold Reusable
  rw [leftOver_of_packs regular packs]
  exact fun r member => absurd member List.not_mem_nil

theorem packs_of_reusable {blocks : List Block} {requests : List Request}
    (regular : ∀ r ∈ requests, Regular r) (small : NoSumWraps blocks requests)
    (reusable : Reusable blocks requests) : Packs (emptied blocks) requests := by
  refine packs_of_leftOver regular (fun b member => ?_) (fun b member => ?_)
    (List.eq_nil_iff_forall_not_mem.mpr fun r member =>
      (regular r (subset_leftOver _ _ member)).size (reusable r member))
  · obtain ⟨c, -, rfl⟩ := List.mem_map.mp member
    exact Nat.zero_le _
  · obtain ⟨c, there, rfl⟩ := List.mem_map.mp member
    exact small c there

/-- **Replays ask for no new block where the requests pack into the blocks of the first play**,
in runs from the newest block to the oldest; and only there, unless the system runs out of memory
or a sum wraps around. -/
theorem replay_steady (malloc : Malloc) (a : Arena) {requests : List Request}
    (regular : ∀ r ∈ requests, Regular r) :
    (Packs (emptied (play malloc a requests).blocks) requests → ∀ k, Steady malloc a requests k) ∧
      (Served malloc (play malloc a requests).reset requests →
        NoSumWraps (play malloc a requests).blocks requests →
          ((∀ k, Steady malloc a requests k) ↔
            Packs (emptied (play malloc a requests).blocks) requests)) := by
  have enough (packs : Packs (emptied (play malloc a requests).blocks) requests) (k : Nat) :
      Steady malloc a requests k :=
    have same := sameBlocks_later (reusable_of_packs regular packs) k
    ⟨same.nblocks, same.total⟩
  exact ⟨enough, fun served small =>
    ⟨fun steady => packs_of_reusable regular small (tooLarge_of_leftOver requests served (steady 1).1),
      enough⟩⟩

/-- Three requests of which the first block holds one and the second two: replays put the first
two into the second block and the third into the first. -/
theorem replay_steady_halves :
    (play sparse (new kDefaultChunk) (List.replicate 3 ⟨16000, 16⟩)).nblocks = 2 ∧
      ∀ k, Steady sparse (new kDefaultChunk) (List.replicate 3 ⟨16000, 16⟩) k := by
  refine ⟨by decide +kernel, (replay_steady sparse (new kDefaultChunk) fun r member => ?_).1 ?_⟩
  · rw [List.eq_of_mem_replicate member]
    exact ⟨⟨4, by decide⟩, by decide⟩
  · have blocks : emptied (play sparse (new kDefaultChunk) (List.replicate 3 ⟨16000, 16⟩)).blocks =
        [⟨0x200000, 32768, 0⟩, ⟨0x100000, 16384, 0⟩] := by decide +kernel
    rw [blocks]
    exact ⟨[[⟨16000, 16⟩, ⟨16000, 16⟩], [⟨16000, 16⟩]], rfl,
      .cons (by decide +kernel) (.cons (by decide +kernel) .nil)⟩

/-- A large request and a small one: the small one gets a block of its own, which is then filled
first and does not help the large one. -/
theorem replay_grows :
    (play sparse (new kDefaultChunk) [⟨100000, 16⟩, ⟨1, 16⟩]).nblocks = 2 ∧
      (later sparse (new kDefaultChunk) [⟨100000, 16⟩, ⟨1, 16⟩] 1).nblocks = 3 ∧
      ¬∀ k, Steady sparse (new kDefaultChunk) [⟨100000, 16⟩, ⟨1, 16⟩] k :=
  ⟨by decide +kernel, by decide +kernel, fun steady => absurd (steady 1).1 (by decide +kernel)⟩

end Opencodepp.Core.Arena
