import Mathlib.Data.List.Basic

/-!
# Edit distance

The distance of two lists is the least number of items to insert, delete or replace to make one
of the other.  `distance` is the usual recursion.  Some script of edits takes as many
(`script_distance`) and none takes fewer (`Script.distance_le`), from which it follows that the
distance is the same read from the end (`distance_reverse`) and that a script can be cut behind
any part of the first list (`distance_append_ge`).
-/

set_option autoImplicit false

namespace Opencodepp.Library.EditDistance

variable {α : Type} [DecidableEq α]

/-- What it costs to put one item for another. -/
def substitution (x y : α) : Nat := if x = y then 0 else 1

/-- One column after the other, where `rest` has the distances of the shorter first list. -/
def distanceFrom (x : α) (rest : List α → Nat) (whole : Nat) : List α → Nat
  | [] => whole
  | y :: b =>
      min (min (rest (y :: b) + 1) (distanceFrom x rest whole b + 1)) (rest b + substitution x y)

/-- The Levenshtein distance. -/
def distance : List α → List α → Nat
  | [], b => b.length
  | x :: a, b => distanceFrom x (distance a) (a.length + 1) b

@[simp] theorem distance_nil_left (b : List α) : distance [] b = b.length := rfl

@[simp] theorem distance_nil_right (a : List α) : distance a [] = a.length := by
  cases a with
  | nil => rfl
  | cons x a => rfl

theorem distance_cons_cons (x y : α) (a b : List α) :
    distance (x :: a) (y :: b) =
      min (min (distance a (y :: b) + 1) (distance (x :: a) b + 1))
        (distance a b + substitution x y) := rfl

/-- A script that makes one list of another, with its number of edits. -/
inductive Script : Nat → List α → List α → Prop
  | done : Script 0 [] []
  | put {n : Nat} {a b : List α} (x y : α) (rest : Script n a b) :
      Script (n + substitution x y) (x :: a) (y :: b)
  | delete {n : Nat} {a b : List α} (x : α) (rest : Script n a b) : Script (n + 1) (x :: a) b
  | insert {n : Nat} {a b : List α} (y : α) (rest : Script n a b) : Script (n + 1) a (y :: b)

namespace Script

theorem inserts : ∀ b : List α, Script b.length [] b
  | [] => .done
  | y :: b => .insert y (inserts b)

theorem deletes : ∀ a : List α, Script a.length a []
  | [] => .done
  | x :: a => .delete x (deletes a)

/-- One script behind another. -/
theorem append {m n : Nat} {a b c d : List α} (first : Script m a b) (second : Script n c d) :
    Script (m + n) (a ++ c) (b ++ d) := by
  induction first with
  | done => rw [Nat.zero_add]; exact second
  | put x y _ inductionHypothesis => rw [Nat.add_right_comm]; exact .put x y inductionHypothesis
  | delete x _ inductionHypothesis => rw [Nat.add_right_comm]; exact .delete x inductionHypothesis
  | insert y _ inductionHypothesis => rw [Nat.add_right_comm]; exact .insert y inductionHypothesis

/-- A script read from the end. -/
theorem reverse {n : Nat} {a b : List α} (script : Script n a b) :
    Script n a.reverse b.reverse := by
  induction script with
  | done => exact .done
  | put x y _ inductionHypothesis =>
      rw [List.reverse_cons, List.reverse_cons]
      have last : Script (0 + substitution x y) [x] [y] := .put x y .done
      rw [Nat.zero_add] at last
      exact inductionHypothesis.append last
  | delete x _ inductionHypothesis =>
      rw [List.reverse_cons]
      simpa using inductionHypothesis.append (.delete x .done)
  | insert y _ inductionHypothesis =>
      rw [List.reverse_cons]
      simpa using inductionHypothesis.append (.insert y .done)

/-- A script cut behind a part of the first list. -/
theorem cut {n : Nat} {c d : List α} (script : Script n c d) : ∀ {a b : List α}, c = a ++ b →
    ∃ k m d₁ d₂, d = d₁ ++ d₂ ∧ Script k a d₁ ∧ Script m b d₂ ∧ k + m = n := by
  induction script with
  | done =>
      intro a b whole
      obtain ⟨rfl, rfl⟩ := List.append_eq_nil_iff.mp whole.symm
      exact ⟨0, 0, [], [], rfl, .done, .done, rfl⟩
  | @put n c d x y rest inductionHypothesis =>
      intro a b whole
      cases a with
      | nil =>
          rw [List.nil_append] at whole
          exact ⟨0, _, [], y :: d, rfl, .done, whole ▸ .put x y rest, Nat.zero_add _⟩
      | cons z a =>
          obtain ⟨rfl, later⟩ := List.cons.inj whole
          obtain ⟨k, m, d₁, d₂, rfl, first, second, rfl⟩ := inductionHypothesis later
          exact ⟨_, m, y :: d₁, d₂, rfl, .put x y first, second, Nat.add_right_comm ..⟩
  | @delete n c d x rest inductionHypothesis =>
      intro a b whole
      cases a with
      | nil =>
          rw [List.nil_append] at whole
          exact ⟨0, _, [], d, rfl, .done, whole ▸ .delete x rest, Nat.zero_add _⟩
      | cons z a =>
          obtain ⟨rfl, later⟩ := List.cons.inj whole
          obtain ⟨k, m, d₁, d₂, rfl, first, second, rfl⟩ := inductionHypothesis later
          exact ⟨_, m, d₁, d₂, rfl, .delete x first, second, Nat.add_right_comm ..⟩
  | insert y rest inductionHypothesis =>
      intro a b whole
      obtain ⟨k, m, d₁, d₂, rfl, first, second, rfl⟩ := inductionHypothesis whole
      exact ⟨_, m, y :: d₁, d₂, rfl, .insert y first, second, Nat.add_right_comm ..⟩

/-- No script is shorter than the distance. -/
theorem distance_le {n : Nat} {a b : List α} (script : Script n a b) : distance a b ≤ n := by
  induction script with
  | done => exact Nat.le_refl _
  | @put n a b x y _ inductionHypothesis =>
      rw [distance_cons_cons]
      omega
  | @delete n a b x _ inductionHypothesis =>
      cases b with
      | nil =>
          rw [distance_nil_right] at inductionHypothesis ⊢
          exact Nat.succ_le_succ inductionHypothesis
      | cons y b => rw [distance_cons_cons]; omega
  | @insert n a b y _ inductionHypothesis =>
      cases a with
      | nil => exact Nat.succ_le_succ inductionHypothesis
      | cons x a => rw [distance_cons_cons]; omega

end Script

/-- A script as short as the distance. -/
theorem script_distance : ∀ a b : List α, Script (distance a b) a b := by
  intro a
  induction a with
  | nil => exact Script.inserts
  | cons x a inductionHypothesis =>
      intro b
      induction b with
      | nil => exact Script.deletes (x :: a)
      | cons y b shorter =>
          rw [distance_cons_cons]
          rcases Nat.le_total (distance a (y :: b) + 1) (distance (x :: a) b + 1) with less | less
          · rw [Nat.min_eq_left less]
            rcases Nat.le_total (distance a (y :: b) + 1) (distance a b + substitution x y)
              with least | least
            · rw [Nat.min_eq_left least]
              exact .delete x (inductionHypothesis (y :: b))
            · rw [Nat.min_eq_right least]
              exact .put x y (inductionHypothesis b)
          · rw [Nat.min_eq_right less]
            rcases Nat.le_total (distance (x :: a) b + 1) (distance a b + substitution x y)
              with least | least
            · rw [Nat.min_eq_left least]
              exact .insert y shorter
            · rw [Nat.min_eq_right least]
              exact .put x y (inductionHypothesis b)

/-- The distance read from the end. -/
theorem distance_reverse (a b : List α) : distance a.reverse b.reverse = distance a b := by
  refine Nat.le_antisymm (script_distance a b).reverse.distance_le ?_
  have back := (script_distance a.reverse b.reverse).reverse
  rw [List.reverse_reverse, List.reverse_reverse] at back
  exact back.distance_le

/-- A part of the first list is no farther from some part of the second than the whole. -/
theorem distance_append_ge (a a' b : List α) :
    ∃ b₁ b₂, b = b₁ ++ b₂ ∧ distance a b₁ ≤ distance (a ++ a') b := by
  obtain ⟨k, m, b₁, b₂, same, first, _, sum⟩ := (script_distance (a ++ a') b).cut rfl
  exact ⟨b₁, b₂, same, Nat.le_trans first.distance_le (sum ▸ Nat.le_add_right k m)⟩

/-- No distance is above the sum of the lengths. -/
theorem distance_le_add (a b : List α) : distance a b ≤ a.length + b.length := by
  have script := (Script.deletes a).append (Script.inserts b)
  rw [List.append_nil, List.nil_append] at script
  exact script.distance_le

end Opencodepp.Library.EditDistance
