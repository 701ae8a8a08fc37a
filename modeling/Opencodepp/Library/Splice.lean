import Mathlib.Data.List.Basic

/-!
# Edits of a list

An edit replaces a block of a list by another list.  Several edits can be made one after the
other, each on the list the others have left, or all at once, each block being one of the list
before any edit.  When the blocks are in order and do not overlap, making the edits from the
last to the first is making them all at once: an edit moves nothing that stands before it.
-/

set_option autoImplicit false

namespace Opencodepp.Library

/-- A block of a list, by its place and size, and what is put there. -/
structure Edit (α : Type) where
  anchor : Nat
  size : Nat
  new : List α
  deriving Repr, DecidableEq

namespace Edit

variable {α : Type}

/-- The list with the block replaced. -/
def splice (e : Edit α) (l : List α) : List α :=
  l.take e.anchor ++ e.new ++ l.drop (e.anchor + e.size)

/-- The block that is replaced. -/
def block (e : Edit α) (l : List α) : List α := (l.drop e.anchor).take e.size

/-- The edits made one after the other, the last one first. -/
def fromEnd (edits : List (Edit α)) (l : List α) : List α := edits.foldr splice l

/-- The list from a place on, with the blocks of all edits replaced. -/
def atOnce (l : List α) : Nat → List (Edit α) → List α
  | start, [] => l.drop start
  | start, e :: rest =>
      (l.drop start).take (e.anchor - start) ++ e.new ++ atOnce l (e.anchor + e.size) rest

/-- The blocks stand one after the other between two places. -/
def InOrder (stop : Nat) : Nat → List (Edit α) → Prop
  | start, [] => start ≤ stop
  | start, e :: rest => start ≤ e.anchor ∧ InOrder stop (e.anchor + e.size) rest

instance (stop : Nat) : ∀ (start : Nat) (edits : List (Edit α)),
    Decidable (InOrder stop start edits)
  | start, [] => inferInstanceAs (Decidable (start ≤ stop))
  | start, e :: rest =>
      have := instDecidableInOrder stop (e.anchor + e.size) rest
      inferInstanceAs (Decidable (start ≤ e.anchor ∧ InOrder stop (e.anchor + e.size) rest))

theorem InOrder.le {stop : Nat} : ∀ {edits : List (Edit α)} {start : Nat},
    InOrder stop start edits → start ≤ stop := by
  intro edits
  induction edits with
  | nil => exact fun order => order
  | cons e rest inductionHypothesis =>
      intro start order
      have later := inductionHypothesis order.2
      have here := order.1
      omega

theorem length_splice {e : Edit α} {l : List α} (inside : e.anchor + e.size ≤ l.length) :
    (e.splice l).length = l.length - e.size + e.new.length := by
  unfold splice
  simp only [List.length_append, List.length_take, List.length_drop]
  omega

/-- Edits in order, made from the end, are made all at once. -/
theorem fromEnd_eq_atOnce {l : List α} : ∀ {edits : List (Edit α)} {start : Nat},
    InOrder l.length start edits → fromEnd edits l = l.take start ++ atOnce l start edits := by
  intro edits
  induction edits with
  | nil =>
      intro start _
      exact (List.take_append_drop start l).symm
  | cons e rest inductionHypothesis =>
      intro start order
      have after := inductionHypothesis order.2
      have bound := order.2.le
      have whole : (l.take (e.anchor + e.size)).length = e.anchor + e.size := by
        rw [List.length_take, Nat.min_eq_left bound]
      have cut : e.anchor ≤ (l.take (e.anchor + e.size)).length := by omega
      have front : l.take e.anchor =
          l.take start ++ (l.drop start).take (e.anchor - start) := by
        rw [← List.take_add, Nat.add_sub_cancel' order.1]
      calc fromEnd (e :: rest) l
          = e.splice (l.take (e.anchor + e.size) ++ atOnce l (e.anchor + e.size) rest) :=
            congrArg e.splice after
        _ = l.take e.anchor ++ e.new ++ atOnce l (e.anchor + e.size) rest := by
            unfold splice
            rw [List.take_append_of_le_length cut, List.take_take,
              Nat.min_eq_left (Nat.le_add_right ..), List.drop_append_of_le_length (by omega),
              List.drop_of_length_le (by omega), List.nil_append]
        _ = l.take start ++ atOnce l start (e :: rest) := by
            rw [front, atOnce]
            simp only [List.append_assoc]

theorem fromEnd_eq_atOnce_zero {l : List α} {edits : List (Edit α)}
    (order : InOrder l.length 0 edits) : fromEnd edits l = atOnce l 0 edits := by
  simpa using fromEnd_eq_atOnce order

/-- Before the first block the list is as it was. -/
theorem take_fromEnd {l : List α} {edits : List (Edit α)} {start : Nat}
    (order : InOrder l.length start edits) : (fromEnd edits l).take start = l.take start := by
  have size : (l.take start).length = start := by
    rw [List.length_take, Nat.min_eq_left order.le]
  rw [fromEnd_eq_atOnce order, List.take_append_of_le_length (Nat.le_of_eq size.symm),
    List.take_take, Nat.min_self]

theorem le_length_fromEnd {l : List α} {edits : List (Edit α)} {start : Nat}
    (order : InOrder l.length start edits) : start ≤ (fromEnd edits l).length := by
  rw [fromEnd_eq_atOnce order, List.length_append, List.length_take, Nat.min_eq_left order.le]
  exact Nat.le_add_right ..

end Edit

end Opencodepp.Library
