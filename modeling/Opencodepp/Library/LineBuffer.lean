import Mathlib.Data.List.Dedup
import Mathlib.Data.List.Induction
import Mathlib.Data.List.Sort

/-!
# Buffering up to a separator

A sequence that arrives in parts is cut at a separator: the pieces that are finished, each ended
by a separator, and the unfinished rest that is kept for what comes next.  The pieces do not
depend on where the parts were cut: what is finished by two parts is what the first one finishes
and what the second finishes after the rest of the first.
-/

set_option autoImplicit false

namespace Opencodepp.Library

variable {α : Type} [DecidableEq α] (separator : α)

/-- The pieces of a sequence that are followed by a separator. -/
def finished (s : List α) : List (List α) := (s.splitOn separator).dropLast

/-- What follows the last separator. -/
def unfinished (s : List α) : List α := ((s.splitOn separator).getLast?).getD []

variable {separator}

theorem finished_of_notMem {s : List α} (plain : separator ∉ s) : finished separator s = [] := by
  simp [finished, List.splitOn_eq_singleton plain]

theorem unfinished_of_notMem {s : List α} (plain : separator ∉ s) :
    unfinished separator s = s := by
  simp [unfinished, List.splitOn_eq_singleton plain]

@[simp] theorem finished_nil : finished separator [] = [] :=
  finished_of_notMem List.not_mem_nil

@[simp] theorem unfinished_nil : unfinished separator [] = [] :=
  unfinished_of_notMem List.not_mem_nil

theorem finished_append_separator (first second : List α) :
    finished separator (first ++ separator :: second) =
      first.splitOn separator ++ finished separator second := by
  unfold finished
  rw [List.splitOn_append_cons_self,
    List.dropLast_append_of_ne_nil (List.splitOn_ne_nil separator second)]

theorem unfinished_append_separator (first second : List α) :
    unfinished separator (first ++ separator :: second) = unfinished separator second := by
  unfold unfinished
  rw [List.splitOn_append_cons_self, List.getLast?_append]
  cases last : (second.splitOn separator).getLast? with
  | none =>
      exact absurd (List.getLast?_eq_none_iff.mp last) (List.splitOn_ne_nil separator second)
  | some piece => rfl

/-- A piece and its separator at the front are the first piece finished. -/
theorem finished_piece {piece : List α} (plain : separator ∉ piece) (rest : List α) :
    finished separator (piece ++ separator :: rest) = piece :: finished separator rest := by
  rw [finished_append_separator, List.splitOn_eq_singleton plain, List.singleton_append]

theorem splitOn_eq_finished_unfinished (s : List α) :
    s.splitOn separator = finished separator s ++ [unfinished separator s] := by
  unfold finished unfinished
  rcases List.eq_nil_or_concat (s.splitOn separator) with none | ⟨front, last, shape⟩
  · exact absurd none (List.splitOn_ne_nil separator s)
  · simp [shape]

/-! ## One element more -/

/-- A separator finishes what was unfinished. -/
theorem finished_concat_separator (s : List α) :
    finished separator (s ++ [separator]) = finished separator s ++ [unfinished separator s] := by
  rw [finished_append_separator, finished_nil, List.append_nil, splitOn_eq_finished_unfinished]

theorem unfinished_concat_separator (s : List α) :
    unfinished separator (s ++ [separator]) = [] := by
  rw [unfinished_append_separator, unfinished_nil]

/-- A sequence has no separator, or a last one. -/
theorem notMem_or_last_separator (separator : α) (s : List α) :
    separator ∉ s ∨ ∃ front rest, s = front ++ separator :: rest ∧ separator ∉ rest := by
  by_cases member : separator ∈ s
  · obtain ⟨rest, front, shape, plain⟩ :=
      List.eq_append_cons_of_mem (List.mem_reverse.mpr member)
    refine .inr ⟨front.reverse, rest.reverse, ?_, by simpa using plain⟩
    rw [← List.reverse_reverse s, shape]
    simp
  · exact .inl member

theorem separator_notMem_unfinished (separator : α) (s : List α) :
    separator ∉ unfinished separator s := by
  rcases notMem_or_last_separator separator s with plain | ⟨front, rest, rfl, plain⟩
  · rwa [unfinished_of_notMem plain]
  · rwa [unfinished_append_separator, unfinished_of_notMem plain]

/-- Another element is added to what is unfinished. -/
theorem finished_concat_of_ne {s : List α} {x : α} (other : x ≠ separator) :
    finished separator (s ++ [x]) = finished separator s := by
  rcases notMem_or_last_separator separator s with plain | ⟨front, rest, rfl, plain⟩
  · rw [finished_of_notMem plain, finished_of_notMem (by simp [plain, other.symm])]
  · rw [List.append_assoc, List.cons_append, finished_append_separator, finished_append_separator,
      finished_of_notMem plain, finished_of_notMem (by simp [plain, other.symm])]

theorem unfinished_concat_of_ne {s : List α} {x : α} (other : x ≠ separator) :
    unfinished separator (s ++ [x]) = unfinished separator s ++ [x] := by
  rcases notMem_or_last_separator separator s with plain | ⟨front, rest, rfl, plain⟩
  · rw [unfinished_of_notMem plain, unfinished_of_notMem (by simp [plain, other.symm])]
  · rw [List.append_assoc, List.cons_append, unfinished_append_separator,
      unfinished_append_separator, unfinished_of_notMem plain,
      unfinished_of_notMem (by simp [plain, other.symm])]

/-! ## In parts -/

/-- What two parts finish, and what they leave, is what the second does after the rest of the
first. -/
theorem finished_unfinished_append (first second : List α) :
    finished separator (first ++ second) =
        finished separator first ++ finished separator (unfinished separator first ++ second) ∧
      unfinished separator (first ++ second) =
        unfinished separator (unfinished separator first ++ second) := by
  induction second using List.reverseRecOn with
  | nil =>
      have plain := separator_notMem_unfinished separator first
      simp [finished_of_notMem plain, unfinished_of_notMem plain]
  | append_singleton second x inductionHypothesis =>
      obtain ⟨pieces, rest⟩ := inductionHypothesis
      rw [← List.append_assoc, ← List.append_assoc]
      by_cases same : x = separator
      · rw [same, finished_concat_separator, finished_concat_separator,
          unfinished_concat_separator, unfinished_concat_separator, pieces, rest,
          List.append_assoc]
        exact ⟨rfl, rfl⟩
      · rw [finished_concat_of_ne same, finished_concat_of_ne same, unfinished_concat_of_ne same,
          unfinished_concat_of_ne same, pieces, rest]
        exact ⟨rfl, rfl⟩

/-!
## Sets written down as one sequence

The elements of a set, each once and in ascending order, are written down one after the other,
each ended by a separator.  The elements in order are known by what is a member (`elements_eq_iff`).
What is written down gives them back unless one of them begins with another and a separator
(`writeDown_inj`).
-/

variable {α : Type}

/-! ## The elements in order -/

section Elements

variable [LE α] [DecidableLE α] [DecidableEq α]

/-- The members of a list as a set iterates over them. -/
def elements (l : List α) : List α := l.dedup.insertionSort (· ≤ ·)

@[simp] theorem mem_elements {l : List α} {x : α} : x ∈ elements l ↔ x ∈ l := by
  rw [elements, List.mem_insertionSort, List.mem_dedup]

theorem elements_eq_iff [Std.Total (α := α) (· ≤ ·)] [IsTrans α (· ≤ ·)]
    [Std.Antisymm (α := α) (· ≤ ·)] {l l' : List α} :
    elements l = elements l' ↔ ∀ x, x ∈ l ↔ x ∈ l' := by
  refine ⟨fun same x => ?_, fun same => ?_⟩
  · rw [← mem_elements (l := l), same, mem_elements]
  · have perm : (elements l).Perm (elements l') := by
      refine (List.perm_insertionSort _ _).trans (.trans ?_ (List.perm_insertionSort _ _).symm)
      refine (List.perm_ext_iff_of_nodup l.nodup_dedup l'.nodup_dedup).mpr fun x => ?_
      rw [List.mem_dedup, List.mem_dedup, same]
    exact perm.eq_of_pairwise (fun a b _ _ => Std.Antisymm.antisymm a b)
      (List.pairwise_insertionSort _ _) (List.pairwise_insertionSort _ _)

theorem elements_of_pairwise [Std.Total (α := α) (· ≤ ·)] [IsTrans α (· ≤ ·)] {l : List α}
    (nodup : l.Nodup) (ordered : l.Pairwise (· ≤ ·)) : elements l = l := by
  rw [elements, nodup.dedup]
  exact ordered.insertionSort_eq

theorem nodup_elements (l : List α) : (elements l).Nodup :=
  (List.perm_insertionSort _ _).nodup_iff.mpr l.nodup_dedup

theorem pairwise_le_elements [Std.Total (α := α) (· ≤ ·)] [IsTrans α (· ≤ ·)] (l : List α) :
    (elements l).Pairwise (· ≤ ·) :=
  List.pairwise_insertionSort _ _

end Elements

/-! ## Writing down -/

/-- Pieces written down one after the other, each ended by a separator. -/
def writeDown (separator : α) (pieces : List (List α)) : List α :=
  pieces.flatMap fun piece => piece ++ [separator]

theorem writeDown_cons (separator : α) (piece : List α) (rest : List (List α)) :
    writeDown separator (piece :: rest) = piece ++ [separator] ++ writeDown separator rest := rfl

/-- A piece with its separator in front of a text that ends in a separator. -/
theorem prefix_of_written {separator : α} {piece piece' : List α}
    (shorter : piece.length < piece'.length) {rest rest' : List α}
    (same : piece ++ [separator] ++ rest = piece' ++ [separator] ++ rest') :
    (piece ++ [separator]) <+: piece' := by
  have long : (piece ++ [separator]).length ≤ piece'.length := by
    rw [List.length_append, List.length_singleton]
    exact shorter
  refine List.prefix_of_prefix_length_le ⟨rest, same⟩ ?_ long
  rw [List.append_assoc]
  exact List.prefix_append _ _

/-- Pieces none of which begins with a piece of the other side and its separator can be told
from what is written down. -/
theorem writeDown_inj {separator : α} {pieces : List (List α)} : ∀ {pieces' : List (List α)},
    (∀ piece ∈ pieces, ∀ piece' ∈ pieces',
      ¬(piece ++ [separator]) <+: piece' ∧ ¬(piece' ++ [separator]) <+: piece) →
    writeDown separator pieces = writeDown separator pieces' → pieces = pieces' := by
  induction pieces with
  | nil =>
      intro pieces' _ same
      cases pieces' with
      | nil => rfl
      | cons piece' rest' => simp [writeDown] at same
  | cons piece rest inductionHypothesis =>
      intro pieces' apart same
      cases pieces' with
      | nil => simp [writeDown] at same
      | cons piece' rest' =>
          rw [writeDown_cons, writeDown_cons] at same
          obtain ⟨noPrefix, noPrefix'⟩ := apart piece List.mem_cons_self piece' List.mem_cons_self
          have length : piece.length = piece'.length := by
            rcases Nat.lt_trichotomy piece.length piece'.length with shorter | equal | longer
            · exact absurd (prefix_of_written shorter same) noPrefix
            · exact equal
            · exact absurd (prefix_of_written longer same.symm) noPrefix'
          obtain ⟨heads, tails⟩ := List.append_inj same (by simp [length])
          rw [List.append_cancel_right heads, inductionHypothesis (fun p member p' member' =>
            apart p (List.mem_cons_of_mem _ member) p' (List.mem_cons_of_mem _ member')) tails]

/-- Two texts are the same in front of their last separator and behind it. -/
theorem append_separator_inj {separator : α} {front front' back back' : List α}
    (plain : separator ∉ back) (plain' : separator ∉ back')
    (same : front ++ separator :: back = front' ++ separator :: back') :
    front = front' ∧ back = back' := by
  rcases List.append_eq_append_iff.mp same with ⟨more, fronts, backs⟩ | ⟨more, fronts, backs⟩
  · cases more with
    | nil => exact ⟨by simp [fronts], (List.cons.inj backs).2⟩
    | cons x more => exact absurd (by simp [(List.cons.inj backs).2]) plain
  · cases more with
    | nil => exact ⟨by simp [fronts], (List.cons.inj backs).2.symm⟩
    | cons x more => exact absurd (by simp [(List.cons.inj backs).2]) plain'

end Opencodepp.Library
