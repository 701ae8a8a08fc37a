import Mathlib.Data.List.Basic

/-!
# Streams read in blocks

A consumer that takes its input in blocks of one size keeps what does not fill a block.
`blocks` are the whole blocks of a list and `rest` is what is behind them.  Feeding a list in two
parts gives the same blocks as feeding it at once: the rest of the first part goes before the
second (`blocks_append`, `rest_append`).
-/

set_option autoImplicit false

namespace Opencodepp.Library.Blocks

variable {α : Type} (size : Nat)

/-- The whole blocks of a list. -/
def blocks (data : List α) : List (List α) :=
  (List.range (data.length / size)).map fun i => (data.drop (i * size)).take size

/-- What is behind the whole blocks. -/
def rest (data : List α) : List α := data.drop (data.length / size * size)

variable {size}

theorem blocks_of_short {data : List α} (short : data.length < size) : blocks size data = [] := by
  unfold blocks
  rw [Nat.div_eq_of_lt short]
  rfl

theorem rest_of_short {data : List α} (short : data.length < size) : rest size data = data := by
  unfold rest
  rw [Nat.div_eq_of_lt short, Nat.zero_mul, List.drop_zero]

theorem length_rest (data : List α) : (rest size data).length = data.length % size := by
  unfold rest
  rw [List.length_drop, Nat.mod_eq_sub_div_mul]

theorem length_rest_lt (positive : 0 < size) (data : List α) : (rest size data).length < size := by
  rw [length_rest]
  exact Nat.mod_lt _ positive

section Append

variable (positive : 0 < size)

include positive

/-- A block in front is the first one. -/
theorem blocks_block_append {block : List α} (whole : block.length = size) (data : List α) :
    blocks size (block ++ data) = block :: blocks size data := by
  unfold blocks
  have count : (block ++ data).length / size = data.length / size + 1 := by
    rw [List.length_append, whole, Nat.add_comm, Nat.add_div_right _ positive]
  rw [count, List.range_succ_eq_map, List.map_cons, List.map_map]
  refine List.cons_eq_cons.mpr ⟨?_, List.map_congr_left fun i _ => ?_⟩
  · rw [Nat.zero_mul, List.drop_zero, ← whole, List.take_left]
  · show ((block ++ data).drop ((i + 1) * size)).take size = _
    rw [Nat.succ_mul, Nat.add_comm, ← List.drop_drop, ← whole, List.drop_left]

theorem rest_block_append {block : List α} (whole : block.length = size) (data : List α) :
    rest size (block ++ data) = rest size data := by
  unfold rest
  have count : (block ++ data).length / size = data.length / size + 1 := by
    rw [List.length_append, whole, Nat.add_comm, Nat.add_div_right _ positive]
  rw [count, Nat.succ_mul, Nat.add_comm, ← List.drop_drop, ← whole, List.drop_left]

/-- A list whose whole blocks are in front is the blocks and the rest. -/
theorem append_split (data more : List α) :
    blocks size (data ++ more) = blocks size data ++ blocks size (rest size data ++ more) ∧
      rest size (data ++ more) = rest size (rest size data ++ more) := by
  generalize count : data.length / size = n
  induction n generalizing data with
  | zero =>
      have short : data.length < size := (Nat.div_eq_zero_iff_lt positive).mp count
      rw [blocks_of_short short, rest_of_short short]
      exact ⟨rfl, rfl⟩
  | succ n inductionHypothesis =>
      have long : size ≤ data.length := by
        by_contra short
        rw [Nat.div_eq_of_lt (Nat.not_le.mp short)] at count
        cases count
      obtain ⟨block, data, rfl, whole⟩ : ∃ block later, data = block ++ later ∧
          block.length = size :=
        ⟨_, _, (List.take_append_drop size data).symm, List.length_take_of_le long⟩
      have less : data.length / size = n := by
        rw [List.length_append, whole, Nat.add_comm, Nat.add_div_right _ positive] at count
        exact Nat.succ.inj count
      obtain ⟨later, last⟩ := inductionHypothesis data less
      rw [List.append_assoc, blocks_block_append positive whole, rest_block_append positive whole,
        blocks_block_append positive whole, rest_block_append positive whole, later, last]
      exact ⟨rfl, rfl⟩

/-- The blocks of two parts. -/
theorem blocks_append (data more : List α) :
    blocks size (data ++ more) = blocks size data ++ blocks size (rest size data ++ more) :=
  (append_split positive data more).1

theorem rest_append (data more : List α) :
    rest size (data ++ more) = rest size (rest size data ++ more) :=
  (append_split positive data more).2

end Append

end Opencodepp.Library.Blocks
