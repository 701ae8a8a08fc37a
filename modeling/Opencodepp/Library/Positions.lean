import Mathlib.Data.List.Induction

/-!
# Lines and columns

The line and the column of the place behind a piece of text, counted from one, where some of its
symbols break the line.  Both follow the text symbol by symbol (`lineAt_concat`,
`columnAt_concat`).  Counting with fewer line breaks gives the same line exactly when there were
no others, and then the same column (`lineAt_eq_iff`, `columnAt_congr`).
-/

set_option autoImplicit false

namespace Opencodepp.Library

namespace Positions

variable {α : Type} (breaks : α → Bool)

/-- One more than the line breaks of the text. -/
def lineAt (text : List α) : Nat := 1 + text.countP breaks

/-- One more than the symbols since the last line break. -/
def columnAt (text : List α) : Nat := 1 + (text.reverse.takeWhile fun a => !breaks a).length

variable {breaks} {fewer : α → Bool}

theorem lineAt_concat (text : List α) (a : α) :
    lineAt breaks (text ++ [a]) =
      if breaks a then lineAt breaks text + 1 else lineAt breaks text := by
  unfold lineAt
  rw [List.countP_append, List.countP_singleton]
  split <;> omega

theorem columnAt_concat (text : List α) (a : α) :
    columnAt breaks (text ++ [a]) = if breaks a then 1 else columnAt breaks text + 1 := by
  unfold columnAt
  rw [List.reverse_append, List.reverse_singleton, List.singleton_append, List.takeWhile_cons]
  cases breaks a with
  | true => rfl
  | false =>
      rw [if_pos (show (!false) = true from rfl), if_neg Bool.false_ne_true, List.length_cons]
      omega

theorem lineAt_map {β : Type} (of : β → α) (text : List β) :
    lineAt breaks (text.map of) = lineAt (fun b => breaks (of b)) text := by
  unfold lineAt
  rw [List.countP_map]
  rfl

theorem columnAt_map {β : Type} (of : β → α) (text : List β) :
    columnAt breaks (text.map of) = columnAt (fun b => breaks (of b)) text := by
  unfold columnAt
  rw [← List.map_reverse, List.takeWhile_map, List.length_map]
  rfl

theorem lineAt_le (implied : ∀ a, fewer a = true → breaks a = true) (text : List α) :
    lineAt fewer text ≤ lineAt breaks text :=
  Nat.add_le_add_left (List.countP_mono_left fun a _ => implied a) 1

/-- Fewer line breaks give the same line exactly when none was left out. -/
theorem lineAt_eq_iff (implied : ∀ a, fewer a = true → breaks a = true) (text : List α) :
    lineAt fewer text = lineAt breaks text ↔ ∀ a ∈ text, breaks a = true → fewer a = true := by
  induction text with
  | nil => exact ⟨fun _ => nofun, fun _ => rfl⟩
  | cons a text inductionHypothesis =>
      have least := lineAt_le implied text
      rw [List.forall_mem_cons, ← inductionHypothesis]
      unfold lineAt at least ⊢
      rw [List.countP_cons, List.countP_cons]
      cases isBreak : breaks a with
      | false =>
          have isFewer : fewer a = false := by
            cases kind : fewer a with
            | false => rfl
            | true => rw [implied a kind] at isBreak; exact nomatch isBreak
          simp [isFewer]
      | true =>
          cases fewer a with
          | true => simp
          | false =>
              simp
              omega

/-- The same line breaks give the same column. -/
theorem columnAt_congr {text : List α} (same : ∀ a ∈ text, fewer a = breaks a) :
    columnAt fewer text = columnAt breaks text := by
  induction text using List.reverseRecOn with
  | nil => rfl
  | append_singleton text a inductionHypothesis =>
      have before := inductionHypothesis fun b member => same b (List.mem_append_left _ member)
      have last := same a (List.mem_append_right _ (List.mem_singleton.mpr rfl))
      rw [columnAt_concat, columnAt_concat, before, last]

end Positions

end Opencodepp.Library
