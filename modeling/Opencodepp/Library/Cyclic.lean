import Mathlib.Data.List.Rotate
import Mathlib.Data.Nat.ModEq

/-!
# Windows of a cyclic row

A window of a row of cells begins at a cell and goes on behind the last cell with the first one.
Writing behind a window that does not fill the row makes it longer at its end (`window_write`),
and reading its first cell makes it shorter at its front (`window_read`).
-/

set_option autoImplicit false

namespace Opencodepp.Library.Cyclic

variable {α : Type} {row : List α} {head count : Nat}

/-- So many values from a cell on, round the end of the row. -/
def window (row : List α) (head count : Nat) : List α := (row.rotate head).take count

@[simp] theorem window_zero : window row head 0 = [] := List.take_zero

theorem length_window (fits : count ≤ row.length) : (window row head count).length = count := by
  simp [window, fits]

/-- A cell is a place of the window. -/
theorem rotate_set (x : α) (inside : count < row.length) :
    (row.set ((head + count) % row.length) x).rotate head = (row.rotate head).set count x := by
  have some_ : 0 < row.length := Nat.zero_lt_of_lt inside
  refine List.ext_getElem (by simp) fun i left right => ?_
  have bound : i < row.length := by simpa using left
  rw [List.getElem_rotate, List.getElem_set, List.getElem_set, List.getElem_rotate]
  simp only [List.length_set]
  by_cases here : count = i
  · subst here
    rw [if_pos (by rw [Nat.add_comm]), if_pos rfl]
  · rw [if_neg here, if_neg]
    intro same
    have cell : (count + head) % row.length = (i + head) % row.length := by
      rw [Nat.add_comm count]
      exact same
    exact here ((Nat.ModEq.add_right_cancel' head cell).eq_of_lt_of_lt inside bound)

/-- **What is written behind a window is its last value.** -/
theorem window_write (x : α) (room : count < row.length) :
    window (row.set ((head + count) % row.length) x) head (count + 1) =
      window row head count ++ [x] := by
  have length : count < ((row.rotate head).set count x).length := by simpa using room
  unfold window
  rw [rotate_set x room, List.take_succ_eq_append_getElem length, List.take_set_of_le (Nat.le_refl _),
    List.getElem_set_self]

/-- **What is read at the start of a window is its first value.** -/
theorem window_read (inside : head < row.length) (fits : count < row.length) :
    ∃ x, row[head]? = some x ∧
      window row head (count + 1) = x :: window row ((head + 1) % row.length) count := by
  refine ⟨row[head], List.getElem?_eq_getElem inside, ?_⟩
  have first : (row.rotate head).head? = some row[head] := by
    rw [List.head?_rotate inside, List.getElem?_eq_getElem inside]
  obtain ⟨rest, shape⟩ : ∃ rest, row.rotate head = row[head] :: rest := by
    cases rotated : row.rotate head with
    | nil => rw [rotated] at first; cases first
    | cons x rest =>
        rw [rotated] at first
        cases first
        exact ⟨rest, rfl⟩
  have length : count ≤ rest.length := by
    have whole := congrArg List.length shape
    rw [List.length_rotate, List.length_cons] at whole
    omega
  have next : row.rotate (head + 1) = rest ++ [row[head]] := by
    rw [← List.rotate_rotate, shape, List.rotate_cons_succ, List.rotate_zero]
  unfold window
  rw [List.rotate_mod, next, shape, List.take_succ_cons, List.take_append_of_le_length length]

end Opencodepp.Library.Cyclic
