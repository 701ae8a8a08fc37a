import Mathlib.Data.List.Sort
import Mathlib.Data.Int.Order.Basic

/-!
# Rows of a table with a primary key

What statements do to a table whose rows are kept in the order of their insertion.  An insertion
is rejected when a row of its key is there, a replacement takes that row away first, and an
insertion that updates on a conflict changes it where it stands.
-/

set_option autoImplicit false

namespace Opencodepp.Library.Rows

variable {α κ : Type} [DecidableEq κ] (key : α → κ)

/-- `INSERT`: a second row of a key is rejected. -/
def insertRow (row : α) (rows : List α) : List α :=
  if rows.any (key · = key row) then rows else rows ++ [row]

/-- `INSERT OR REPLACE`: the row of the key makes room. -/
def replaceRow (row : α) (rows : List α) : List α := rows.filter (key · ≠ key row) ++ [row]

/-- `UPDATE` of the row of a key. -/
def updateRow (k : κ) (change : α → α) (rows : List α) : List α :=
  rows.map fun old => if key old = k then change old else old

/-- `INSERT .. ON CONFLICT DO UPDATE`: the row of the key is changed where it stands. -/
def upsertRow (change : α → α) (row : α) (rows : List α) : List α :=
  if rows.any (key · = key row) then updateRow key (key row) change rows else rows ++ [row]

/-- `ORDER BY` a column. -/
def orderBy (column : α → Int) (rows : List α) : List α :=
  rows.insertionSort fun a b => column a ≤ column b

/-- `COALESCE(MAX(column),-1)+1`. -/
def nextValue (column : α → Int) (rows : List α) : Int := (rows.map column).max?.getD (-1) + 1

variable {key}

theorem insertRow_of_new {row : α} {rows : List α} (new : ∀ old ∈ rows, key old ≠ key row) :
    insertRow key row rows = rows ++ [row] := by
  apply if_neg
  simpa using new

theorem upsertRow_of_new {change : α → α} {row : α} {rows : List α}
    (new : ∀ old ∈ rows, key old ≠ key row) : upsertRow key change row rows = rows ++ [row] := by
  apply if_neg
  simpa using new

theorem upsertRow_of_mem {change : α → α} {row old : α} {rows : List α} (member : old ∈ rows)
    (same : key old = key row) :
    upsertRow key change row rows = updateRow key (key row) change rows := by
  apply if_pos
  rw [List.any_eq_true]
  exact ⟨old, member, decide_eq_true same⟩

/-- The row of a key among those that are not of another one. -/
theorem find?_filter_ne (rows : List α) (gone k : κ) :
    (rows.filter (key · ≠ gone)).find? (key · = k) =
      if gone = k then none else rows.find? (key · = k) := by
  by_cases same : gone = k
  · rw [if_pos same, List.find?_eq_none]
    intro old member here
    have other := (List.mem_filter.mp member).2
    simp only [same, ne_eq, decide_not, Bool.not_eq_true', decide_eq_false_iff_not] at other
    exact other (of_decide_eq_true here)
  · rw [if_neg same, List.find?_filter]
    congr 1
    funext old
    by_cases here : key old = k
    · simp [here, Ne.symm same]
    · simp [here]

theorem find?_cons_if (row : α) (rows : List α) (k : κ) :
    (row :: rows).find? (key · = k) = if key row = k then some row else rows.find? (key · = k) := by
  by_cases same : key row = k
  · rw [if_pos same, List.find?_cons_of_pos (by simpa using same)]
  · rw [if_neg same, List.find?_cons_of_neg (by simpa using same)]

/-- The rows of a key after one more row. -/
theorem filter_concat (row : α) (rows : List α) (k : κ) :
    (rows ++ [row]).filter (key · = k) =
      rows.filter (key · = k) ++ if key row = k then [row] else [] := by
  rw [List.filter_append]
  by_cases same : key row = k
  · rw [if_pos same, List.filter_cons_of_pos (by simpa using same), List.filter_nil]
  · rw [if_neg same, List.filter_cons_of_neg (by simpa using same), List.filter_nil]

/-- The row of a key after one more row. -/
theorem find?_concat (row : α) (rows : List α) (k : κ) :
    (rows ++ [row]).find? (key · = k) =
      (rows.find? (key · = k)).or (if key row = k then some row else none) := by
  rw [List.find?_append, find?_cons_if, List.find?_nil]

/-- The row of a key after a replacement. -/
theorem find?_replaceRow (row : α) (rows : List α) (k : κ) :
    (replaceRow key row rows).find? (key · = k) =
      if key row = k then some row else rows.find? (key · = k) := by
  unfold replaceRow
  rw [find?_concat, find?_filter_ne]
  by_cases same : key row = k
  · rw [if_pos same, if_pos same, if_pos same, Option.none_or]
  · rw [if_neg same, if_neg same, if_neg same, Option.or_none]

section Update

variable {k : κ} {change : α → α}

/-- A column that the change does not touch. -/
theorem map_updateRow {β : Type} {column : α → β} (kept : ∀ old, column (change old) = column old)
    (rows : List α) : (updateRow key k change rows).map column = rows.map column := by
  unfold updateRow
  rw [List.map_map]
  refine List.map_congr_left fun old _ => ?_
  show column (if key old = k then change old else old) = column old
  split
  · exact kept old
  · rfl

/-- A view of the rows in which the change is one, too. -/
theorem view_updateRow {β ι : Type} [DecidableEq ι] {key' : β → ι} {view : α → β} {i : ι}
    {change' : β → β} {rows : List α} (keys : ∀ old ∈ rows, key' (view old) = i ↔ key old = k)
    (changed : ∀ old, view (change old) = change' (view old)) :
    (updateRow key k change rows).map view = updateRow key' i change' (rows.map view) := by
  unfold updateRow
  rw [List.map_map, List.map_map]
  refine List.map_congr_left fun old member => ?_
  show view (if key old = k then change old else old) =
    if key' (view old) = i then change' (view old) else view old
  by_cases here : key old = k
  · rw [if_pos here, if_pos ((keys old member).mpr here), changed]
  · rw [if_neg here, if_neg fun there => here ((keys old member).mp there)]

theorem filter_updateRow {p : α → Bool} (kept : ∀ old, p (change old) = p old) (rows : List α) :
    (updateRow key k change rows).filter p = updateRow key k change (rows.filter p) := by
  unfold updateRow
  rw [List.filter_map]
  congr 1
  refine List.filter_congr fun old _ => ?_
  show p (if key old = k then change old else old) = p old
  split
  · exact kept old
  · rfl

theorem find?_updateRow {p : α → Bool} (kept : ∀ old, p (change old) = p old) (rows : List α) :
    (updateRow key k change rows).find? p =
      (rows.find? p).map fun old => if key old = k then change old else old := by
  rw [← List.head?_filter, filter_updateRow kept, ← List.head?_filter]
  unfold updateRow
  rw [List.head?_map]

end Update

/-- Rows that stand in the order of a column are in order. -/
theorem orderBy_of_ascending {column : α → Int} {rows : List α}
    (ascending : rows.Pairwise fun a b => column a < column b) : orderBy column rows = rows :=
  (ascending.imp fun less => Int.le_of_lt less).insertionSort_eq

/-- The next value is above all others. -/
theorem lt_nextValue {column : α → Int} {row : α} {rows : List α} (member : row ∈ rows) :
    column row < nextValue column rows := by
  have value : column row ∈ rows.map column := List.mem_map_of_mem member
  unfold nextValue
  cases largest : (rows.map column).max? with
  | none =>
      rw [List.max?_eq_none_iff.mp largest] at value
      exact absurd value List.not_mem_nil
  | some m =>
      have above := (List.max?_eq_some_iff.mp largest).2 _ value
      exact Int.lt_add_one_of_le above

end Opencodepp.Library.Rows
