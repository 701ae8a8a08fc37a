import Mathlib.Data.List.Basic
import Mathlib.Data.List.Induction

/-!
# Binary heaps

A row of items stands for a tree: the children of the item at `i` stand at `2 * i + 1` and
`2 * i + 2`.  It is a heap when no item comes before its parent in the order of the keys, and then
its first item comes before all others (`first_le`).

`pushHeap` takes the last item into the heap of the ones before it, and `popHeap` moves the first
item to the end and makes the ones before it a heap again.  Both only move items (`pushHeap_perm`,
`popHeap_cons`).
-/

set_option autoImplicit false

namespace Opencodepp.Library.BinaryHeap

variable {α : Type} (key : α → Nat)

def parent (i : Nat) : Nat := (i - 1) / 2

/-- The key at a place of the row. -/
def keyAt (row : List α) (i : Nat) : Nat := (row[i]?.map key).getD 0

/-- Two items change places. -/
def swap (row : List α) (i j : Nat) : List α :=
  match row[i]?, row[j]? with
  | some a, some b => (row.set i b).set j a
  | _, _ => row

/-- An item rises as long as it comes before its parent. -/
def siftUp : Nat → Nat → List α → List α
  | 0, _, row => row
  | fuel + 1, i, row =>
      if keyAt key row i < keyAt key row (parent i) then
        siftUp fuel (parent i) (swap row i (parent i))
      else row

/-- The child that comes first. -/
def firstChild (row : List α) (i : Nat) : Nat :=
  if 2 * i + 2 < row.length && keyAt key row (2 * i + 2) < keyAt key row (2 * i + 1) then
    2 * i + 2
  else 2 * i + 1

/-- An item sinks as long as a child comes before it. -/
def siftDown : Nat → Nat → List α → List α
  | 0, _, row => row
  | fuel + 1, i, row =>
      let child := firstChild key row i
      if child < row.length && keyAt key row child < keyAt key row i then
        siftDown fuel child (swap row i child)
      else row

def pushHeap (row : List α) : List α := siftUp key row.length (row.length - 1) row

def popHeap : List α → List α
  | [] => []
  | first :: rest =>
      (match rest.getLast? with
        | none => []
        | some last => siftDown key rest.length 0 (last :: rest.dropLast)) ++ [first]

/-- No item comes before its parent. -/
def IsHeap (row : List α) : Prop :=
  ∀ i < row.length, keyAt key row (parent i) ≤ keyAt key row i

instance (row : List α) : Decidable (IsHeap key row) :=
  inferInstanceAs (Decidable (∀ i < row.length, _))

variable {key} {row : List α}

theorem parent_lt {i : Nat} (below : 0 < i) : parent i < i := by
  unfold parent
  omega

theorem parent_le (i : Nat) : parent i ≤ i := by
  unfold parent
  omega

/-! ## Changing places -/

theorem swap_eq {i j : Nat} (first : i < row.length) (second : j < row.length) :
    swap row i j = (row.set i row[j]).set j row[i] := by
  unfold swap
  rw [List.getElem?_eq_getElem first, List.getElem?_eq_getElem second]

theorem swap_perm (row : List α) (i j : Nat) : (swap row i j).Perm row := by
  by_cases inside : i < row.length ∧ j < row.length
  · rw [swap_eq inside.1 inside.2]
    exact List.set_set_perm inside.1 inside.2
  · have unmoved : swap row i j = row := by
      unfold swap
      split
      · next a b first second =>
          exact absurd ⟨(List.getElem?_eq_some_iff.mp first).1,
            (List.getElem?_eq_some_iff.mp second).1⟩ inside
      · rfl
    rw [unmoved]

@[simp] theorem length_swap (row : List α) (i j : Nat) : (swap row i j).length = row.length :=
  (swap_perm row i j).length_eq

theorem keyAt_swap {i j : Nat} (first : i < row.length) (second : j < row.length) (k : Nat) :
    keyAt key (swap row i j) k =
      if k = j then keyAt key row i else if k = i then keyAt key row j else keyAt key row k := by
  unfold keyAt
  rw [swap_eq first second, List.getElem?_set, List.getElem?_set]
  by_cases atJ : k = j
  · subst atJ
    simp [second, first]
  · by_cases atI : k = i
    · subst atI
      simp [Ne.symm atJ, first, second, atJ]
    · simp [Ne.symm atJ, Ne.symm atI, atJ, atI]

/-! ## Rising -/

theorem siftUp_perm (fuel : Nat) : ∀ (i : Nat) (row : List α),
    (siftUp key fuel i row).Perm row := by
  induction fuel with
  | zero => exact fun i row => .refl row
  | succ fuel inductionHypothesis =>
      intro i row
      unfold siftUp
      split
      · exact (inductionHypothesis _ _).trans (swap_perm row i (parent i))
      · exact .refl row

/-- Only one item may come before its parent, and its children come after that parent. -/
structure Rising (key : α → Nat) (row : List α) (i : Nat) : Prop where
  inside : i < row.length
  ordered : ∀ j < row.length, j ≠ i → keyAt key row (parent j) ≤ keyAt key row j
  children : ∀ j < row.length, j ≠ i → parent j = i →
    keyAt key row (parent i) ≤ keyAt key row j

theorem Rising.swap {i : Nat} (rising : Rising key row i)
    (before : keyAt key row i < keyAt key row (parent i)) :
    Rising key (swap row i (parent i)) (parent i) := by
  have above : parent i < i := by
    rcases Nat.eq_zero_or_pos i with rfl | below
    · exact absurd before (Nat.lt_irrefl _)
    · exact parent_lt below
  have inside := rising.inside
  have moved := @keyAt_swap α key row _ _ inside (Nat.lt_trans above inside)
  refine ⟨by simp; omega, fun j within other => ?_, fun j within other child => ?_⟩
  · rw [length_swap] at within
    rw [moved, moved, if_neg other]
    by_cases here : j = i
    · subst here
      rw [if_pos rfl, if_pos rfl]
      exact Nat.le_of_lt before
    · rw [if_neg here]
      have edge := rising.ordered j within here
      by_cases sibling : parent j = parent i
      · rw [if_pos sibling]
        rw [sibling] at edge
        omega
      · rw [if_neg sibling]
        by_cases child : parent j = i
        · rw [if_pos child]
          exact rising.children j within here child
        · rw [if_neg child]
          exact edge
  · rw [length_swap] at within
    have higher : parent (parent i) ≠ i := by
      have := parent_le (parent i)
      omega
    have edge := rising.ordered (parent i) (Nat.lt_trans above inside) (by omega)
    rw [moved, moved, if_neg other]
    by_cases top : parent (parent i) = parent i
    · -- the parent is the root, whose parent is itself
      rw [if_pos top]
      by_cases here : j = i
      · rw [if_pos here]
        omega
      · rw [if_neg here]
        have sibling := rising.ordered j within here
        rw [child] at sibling
        omega
    · rw [if_neg top, if_neg higher]
      by_cases here : j = i
      · rw [if_pos here]
        exact edge
      · rw [if_neg here]
        have sibling := rising.ordered j within here
        rw [child] at sibling
        omega

theorem Rising.isHeap {i : Nat} (rising : Rising key row i)
    (after : keyAt key row (parent i) ≤ keyAt key row i) : IsHeap key row := by
  intro j within
  by_cases here : j = i
  · rw [here]
    exact after
  · exact rising.ordered j within here

theorem Rising.siftUp {fuel : Nat} : ∀ {i : Nat} {row : List α}, i ≤ fuel →
    Rising key row i → IsHeap key (siftUp key fuel i row) := by
  induction fuel with
  | zero =>
      intro i row enough rising
      cases Nat.le_zero.mp enough
      exact rising.isHeap (Nat.le_refl _)
  | succ fuel inductionHypothesis =>
      intro i row enough rising
      unfold BinaryHeap.siftUp
      split
      · next before =>
          refine inductionHypothesis ?_ (rising.swap before)
          rcases Nat.eq_zero_or_pos i with rfl | below
          · exact absurd before (Nat.lt_irrefl _)
          · have := parent_lt below
            omega
      · next after => exact rising.isHeap (Nat.not_lt.mp after)

/-! ## Sinking -/

theorem siftDown_perm (fuel : Nat) : ∀ (i : Nat) (row : List α),
    (siftDown key fuel i row).Perm row := by
  induction fuel with
  | zero => exact fun i row => .refl row
  | succ fuel inductionHypothesis =>
      intro i row
      unfold siftDown
      dsimp only
      split
      · exact (inductionHypothesis _ _).trans (swap_perm row i _)
      · exact .refl row

/-- Only the children of one item may come before it, and they come after its parent. -/
structure Sinking (key : α → Nat) (row : List α) (i : Nat) : Prop where
  ordered : ∀ j < row.length, parent j ≠ i → keyAt key row (parent j) ≤ keyAt key row j
  children : ∀ j < row.length, j ≠ i → parent j = i → i ≠ 0 →
    keyAt key row (parent i) ≤ keyAt key row j

theorem parent_firstChild (i : Nat) : parent (firstChild key row i) = i := by
  unfold firstChild parent
  split <;> omega

theorem lt_firstChild (i : Nat) : i < firstChild key row i := by
  unfold firstChild
  split <;> omega

/-- No child comes before the first one. -/
theorem firstChild_le {i j : Nat} (within : j < row.length) (other : j ≠ i)
    (child : parent j = i) : keyAt key row (firstChild key row i) ≤ keyAt key row j := by
  have which : j = 2 * i + 1 ∨ j = 2 * i + 2 := by
    unfold parent at child
    omega
  unfold firstChild
  rcases which with rfl | rfl
  · split
    · next right =>
        simp only [Bool.and_eq_true, decide_eq_true_eq] at right
        exact Nat.le_of_lt right.2
    · exact Nat.le_refl _
  · split
    · exact Nat.le_refl _
    · next left =>
        simp only [Bool.and_eq_true, decide_eq_true_eq, not_and] at left
        exact Nat.not_lt.mp (left within)

theorem Sinking.swap {i : Nat} (sinking : Sinking key row i)
    (inside : firstChild key row i < row.length)
    (before : keyAt key row (firstChild key row i) < keyAt key row i) :
    Sinking key (swap row i (firstChild key row i)) (firstChild key row i) := by
  have below := @lt_firstChild α key row i
  have up := @parent_firstChild α key row i
  have least := @firstChild_le α key row i
  generalize firstChild key row i = c at inside before below up least ⊢
  have moved := @keyAt_swap α key row _ _ (Nat.lt_trans below inside) inside
  refine ⟨fun j within other => ?_, fun j within other child _ => ?_⟩
  · rw [length_swap] at within
    rw [moved, moved, if_neg other]
    by_cases atC : j = c
    · rw [if_pos atC, atC, up, if_pos rfl]
      exact Nat.le_of_lt before
    · rw [if_neg atC]
      by_cases atI : j = i
      · subst atI
        rw [if_pos rfl]
        by_cases root : parent j = j
        · exact Nat.le_of_eq (if_pos root)
        · rw [if_neg root]
          have top : j ≠ 0 := by
            rintro rfl
            exact root rfl
          exact sinking.children c inside (by omega) up top
      · rw [if_neg atI]
        by_cases child : parent j = i
        · rw [if_pos child]
          exact least within atI child
        · rw [if_neg child]
          exact sinking.ordered j within child
  · rw [length_swap] at within
    have apart : parent j ≠ i := by omega
    have deeper : j ≠ i := by
      have := parent_le j
      omega
    rw [moved, moved, up, if_neg (by omega), if_pos rfl, if_neg other, if_neg deeper]
    have edge := sinking.ordered j within apart
    rwa [child] at edge

theorem Sinking.isHeap {i : Nat} (sinking : Sinking key row i)
    (after : ∀ j < row.length, j ≠ i → parent j = i → keyAt key row i ≤ keyAt key row j) :
    IsHeap key row := by
  intro j within
  by_cases child : parent j = i
  · by_cases here : j = i
    · exact Nat.le_of_eq (by rw [child, here])
    · rw [child]
      exact after j within here child
  · exact sinking.ordered j within child

theorem Sinking.siftDown {fuel : Nat} : ∀ {i : Nat} {row : List α}, row.length ≤ i + fuel →
    Sinking key row i → IsHeap key (siftDown key fuel i row) := by
  induction fuel with
  | zero =>
      intro i row enough sinking
      refine sinking.isHeap fun j within other child => ?_
      have := parent_le j
      omega
  | succ fuel inductionHypothesis =>
      intro i row enough sinking
      unfold BinaryHeap.siftDown
      dsimp only
      have below := @lt_firstChild α key row i
      split
      · next before =>
          simp only [Bool.and_eq_true, decide_eq_true_eq] at before
          exact inductionHypothesis (by rw [length_swap]; omega)
            (sinking.swap before.1 before.2)
      · next after =>
          simp only [Bool.and_eq_true, decide_eq_true_eq, not_and, Nat.not_lt] at after
          refine sinking.isHeap fun j within other child => ?_
          have least := @firstChild_le α key _ _ _ within other child
          by_cases inside : firstChild key row i < row.length
          · exact Nat.le_trans (after inside) least
          · -- the left child would be the first one, and it is not there
            exfalso
            unfold firstChild at inside
            unfold parent at child
            split at inside
            · next right =>
                simp only [Bool.and_eq_true, decide_eq_true_eq] at right
                exact inside right.1
            · omega

/-! ## Pushing and popping -/

theorem pushHeap_perm (row : List α) : (pushHeap key row).Perm row := siftUp_perm _ _ row

theorem keyAt_append_left {more : List α} {i : Nat} (inside : i < row.length) :
    keyAt key (row ++ more) i = keyAt key row i := by
  unfold keyAt
  rw [List.getElem?_append_left inside]

theorem isHeap_pushHeap (heap : IsHeap key row) (a : α) :
    IsHeap key (pushHeap key (row ++ [a])) := by
  have length : (row ++ [a]).length = row.length + 1 := by simp
  have last : (row ++ [a]).length - 1 = row.length := by omega
  unfold pushHeap
  rw [last]
  refine Rising.siftUp (by omega) ⟨by omega, fun j within other => ?_,
    fun j within other child => ?_⟩
  · have inside : j < row.length := by omega
    have := parent_le j
    rw [keyAt_append_left inside, keyAt_append_left (by omega)]
    exact heap j inside
  · have := parent_le j
    omega

/-- Only the keys make a heap. -/
theorem isHeap_congr {other : List α} (same : other.map key = row.map key)
    (heap : IsHeap key row) : IsHeap key other := by
  have keys (i : Nat) : keyAt key other i = keyAt key row i := by
    unfold keyAt
    rw [← List.getElem?_map, ← List.getElem?_map, same]
  have lengths := congrArg List.length same
  rw [List.length_map, List.length_map] at lengths
  intro i within
  rw [keys, keys]
  exact heap i (lengths ▸ within)

/-- A single item is a heap as it is. -/
theorem pushHeap_singleton (a : α) : pushHeap key [a] = [a] := by
  have top : ¬keyAt key [a] 0 < keyAt key [a] (parent 0) := Nat.lt_irrefl _
  show siftUp key 1 0 [a] = [a]
  unfold siftUp
  rw [if_neg top]

theorem isHeap_nil : IsHeap key [] := fun i within => absurd within (Nat.not_lt_zero i)

/-- The first item of a heap comes before all others. -/
theorem first_le {first : α} {rest : List α} (heap : IsHeap key (first :: rest)) {a : α}
    (member : a ∈ first :: rest) : key first ≤ key a := by
  have all (i : Nat) : i < (first :: rest).length →
      key first ≤ keyAt key (first :: rest) i := by
    induction i using Nat.strongRecOn with
    | ind i inductionHypothesis =>
        intro within
        rcases Nat.eq_zero_or_pos i with rfl | below
        · exact Nat.le_refl _
        · have higher := parent_lt below
          exact Nat.le_trans (inductionHypothesis _ higher (by omega)) (heap i within)
  obtain ⟨i, within, rfl⟩ := List.mem_iff_getElem.mp member
  have least := all i within
  unfold keyAt at least
  rwa [List.getElem?_eq_getElem within] at least

/-- The first item of a heap goes to the end, and the others are a heap. -/
theorem popHeap_cons {first : α} {rest : List α} (heap : IsHeap key (first :: rest)) :
    ∃ popped, popHeap key (first :: rest) = popped ++ [first] ∧ popped.Perm rest ∧
      IsHeap key popped := by
  cases rest using List.reverseRecOn with
  | nil => exact ⟨[], rfl, .refl _, isHeap_nil⟩
  | append_singleton middle last =>
      refine ⟨siftDown key (middle.length + 1) 0 (last :: middle), ?_, ?_, ?_⟩
      · simp [popHeap]
      · exact (siftDown_perm _ 0 _).trans (List.perm_append_singleton last middle).symm
      · have same (i : Nat) (below : 0 < i) (within : i < middle.length + 1) :
            keyAt key (last :: middle) i = keyAt key (first :: (middle ++ [last])) i := by
          obtain ⟨i, rfl⟩ := Nat.exists_eq_succ_of_ne_zero (Nat.ne_of_gt below)
          unfold keyAt
          rw [List.getElem?_cons_succ, List.getElem?_cons_succ,
            List.getElem?_append_left (by omega)]
        refine Sinking.siftDown (by simp) ⟨fun j within other => ?_, fun _ _ _ _ top =>
          absurd rfl top⟩
        rw [List.length_cons] at within
        have below : 0 < parent j := Nat.pos_of_ne_zero other
        have := parent_le j
        rw [same _ below (by omega), same j (by omega) within]
        exact heap j (by simp; omega)

end Opencodepp.Library.BinaryHeap
