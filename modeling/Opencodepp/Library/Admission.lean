import Mathlib.Algebra.GroupWithZero.Nat
import Mathlib.Data.List.Basic

/-!
# Admission to a room

Items come in a line, each at its cost, and are taken as long as they fit beside what was taken
before; one that does not fit is passed over, and the line goes on.  What is taken depends on the
order of the line.  The taken items are the last of the line exactly when everything from the
first item that fits alone fits together (`newest_iff`), and admission one beside the other agrees
with admission of each alone exactly when all that fit alone fit together (`alone_iff`).
-/

set_option autoImplicit false

namespace Opencodepp.Library

namespace Admission

variable {α : Type} (cost : α → Nat) (cap : Nat)

/-- The cost of several items. -/
def total (items : List α) : Nat := (items.map cost).sum

/-- What becomes of each item of the line, when `used` is in use before. -/
def verdicts : Nat → List α → List (α × Bool)
  | _, [] => []
  | used, a :: rest =>
      if used + cost a ≤ cap then (a, true) :: verdicts (used + cost a) rest
      else (a, false) :: verdicts used rest

/-- The items that are taken. -/
def taken (decided : List (α × Bool)) : List α := (decided.filter (·.2)).map (·.1)

/-- Nothing is passed over after an item that is taken. -/
def Newest (decided : List (α × Bool)) : Prop :=
  decided.Pairwise fun earlier later => earlier.2 = true → later.2 = true

variable {cost cap} {used : Nat} {items : List α}

theorem verdicts_cons_fits {a : α} {rest : List α} (fits : used + cost a ≤ cap) :
    verdicts cost cap used (a :: rest) = (a, true) :: verdicts cost cap (used + cost a) rest :=
  if_pos fits

theorem verdicts_cons_exceeds {a : α} {rest : List α} (exceeds : cap < used + cost a) :
    verdicts cost cap used (a :: rest) = (a, false) :: verdicts cost cap used rest :=
  if_neg (Nat.not_le.mpr exceeds)

theorem total_cons (a : α) (rest : List α) :
    total cost (a :: rest) = cost a + total cost rest := by
  simp [total]

theorem taken_cons_true (a : α) (rest : List (α × Bool)) :
    taken ((a, true) :: rest) = a :: taken rest := rfl

theorem taken_cons_false (a : α) (rest : List (α × Bool)) :
    taken ((a, false) :: rest) = taken rest := rfl

/-- Every item of the line is decided on. -/
theorem verdicts_items (used : Nat) (items : List α) :
    (verdicts cost cap used items).map (·.1) = items := by
  induction items generalizing used with
  | nil => rfl
  | cons a rest inductionHypothesis =>
      unfold verdicts
      split
      · exact congrArg (a :: ·) (inductionHypothesis _)
      · exact congrArg (a :: ·) (inductionHypothesis _)

/-- What is taken stays within the cap. -/
theorem taken_le (within : used ≤ cap) :
    used + total cost (taken (verdicts cost cap used items)) ≤ cap := by
  induction items generalizing used with
  | nil => exact within
  | cons a rest inductionHypothesis =>
      by_cases fits : used + cost a ≤ cap
      · rw [verdicts_cons_fits fits, taken_cons_true, total_cons, ← Nat.add_assoc]
        exact inductionHypothesis fits
      · rw [verdicts_cons_exceeds (Nat.not_le.mp fits), taken_cons_false]
        exact inductionHypothesis within

/-! ## A line that closes -/

/-- The items that are taken when the line closes at the first one that does not fit. -/
def untilFull (cost : α → Nat) (cap : Nat) : Nat → List α → List α
  | _, [] => []
  | used, a :: rest =>
      if used + cost a ≤ cap then a :: untilFull cost cap (used + cost a) rest else []

theorem untilFull_prefix (used : Nat) (items : List α) :
    untilFull cost cap used items <+: items := by
  induction items generalizing used with
  | nil => exact List.prefix_rfl
  | cons a rest inductionHypothesis =>
      unfold untilFull
      split
      · exact List.cons_prefix_cons.mpr ⟨rfl, inductionHypothesis _⟩
      · exact List.nil_prefix

theorem untilFull_le (within : used ≤ cap) (items : List α) :
    used + total cost (untilFull cost cap used items) ≤ cap := by
  induction items generalizing used with
  | nil => exact within
  | cons a rest inductionHypothesis =>
      unfold untilFull
      split
      · next fits =>
          rw [total_cons, ← Nat.add_assoc]
          exact inductionHypothesis fits
      · exact within

/-! ## Any selection -/

theorem taken_sublist (used : Nat) (items : List α) :
    (taken (verdicts cost cap used items)).Sublist items := by
  have kept : (taken (verdicts cost cap used items)).Sublist
      ((verdicts cost cap used items).map (·.1)) := List.filter_sublist.map _
  rwa [verdicts_items] at kept

/-- Nothing is taken into a room that is overfull. -/
theorem taken_of_overfull (overfull : cap < used) (items : List α) :
    taken (verdicts cost cap used items) = [] := by
  induction items with
  | nil => rfl
  | cons a rest inductionHypothesis =>
      rw [verdicts_cons_exceeds (Nat.lt_add_right _ overfull), taken_cons_false,
        inductionHypothesis]

/-- What every selection of the items keeps that fits, the items that are taken keep. -/
theorem taken_of_selections {motive : List α → Prop} (none_ : motive [])
    (all : ∀ chosen, chosen.Sublist items → used + total cost chosen ≤ cap → motive chosen) :
    motive (taken (verdicts cost cap used items)) := by
  rcases Nat.lt_or_ge cap used with overfull | within
  · rw [taken_of_overfull overfull]
    exact none_
  · exact all _ (taken_sublist used items) (taken_le within)

/-- Where everything fits, everything is taken. -/
theorem taken_of_fits (fits : used + total cost items ≤ cap) :
    taken (verdicts cost cap used items) = items := by
  induction items generalizing used with
  | nil => rfl
  | cons a rest inductionHypothesis =>
      rw [total_cons, ← Nat.add_assoc] at fits
      rw [verdicts_cons_fits (by omega), taken_cons_true, inductionHypothesis fits]

theorem total_le_of_sublist {chosen : List α} (sub : chosen.Sublist items) :
    total cost chosen ≤ total cost items := by
  induction sub with
  | slnil => exact Nat.le_refl _
  | cons a _ inductionHypothesis => rw [total_cons]; omega
  | cons_cons a _ inductionHypothesis => rw [total_cons, total_cons]; omega

/-! ## Items that are sure -/

/-- An item that fits together with all before it is taken. -/
theorem taken_of_prefix_fits {i : Nat} {decided : α × Bool}
    (there : (verdicts cost cap used items)[i]? = some decided)
    (fits : used + total cost (items.take (i + 1)) ≤ cap) : decided.2 = true := by
  induction items generalizing used i with
  | nil => simp [verdicts] at there
  | cons a rest inductionHypothesis =>
      rw [List.take_succ_cons, total_cons, ← Nat.add_assoc] at fits
      rw [verdicts_cons_fits (by omega)] at there
      cases i with
      | zero =>
          rw [List.getElem?_cons_zero] at there
          rw [← Option.some.inj there]
      | succ i =>
          rw [List.getElem?_cons_succ] at there
          exact inductionHypothesis there fits

/-- An item that does not fit alone is passed over. -/
theorem passed_of_exceeds {i : Nat} {decided : α × Bool}
    (there : (verdicts cost cap used items)[i]? = some decided)
    (exceeds : cap < used + cost decided.1) : decided.2 = false := by
  induction items generalizing used i with
  | nil => simp [verdicts] at there
  | cons a rest inductionHypothesis =>
      unfold verdicts at there
      split at there
      · next fits =>
          cases i with
          | zero =>
              rw [List.getElem?_cons_zero] at there
              rw [← Option.some.inj there] at exceeds
              exact absurd fits (Nat.not_le.mpr exceeds)
          | succ i =>
              rw [List.getElem?_cons_succ] at there
              exact inductionHypothesis there (by omega)
      · cases i with
        | zero =>
            rw [List.getElem?_cons_zero] at there
            rw [← Option.some.inj there]
        | succ i =>
            rw [List.getElem?_cons_succ] at there
            exact inductionHypothesis there exceeds

/-! ## The newest items -/

/-- Then what is taken is the end of the line. -/
theorem Newest.suffix {decided : List (α × Bool)} (newest : Newest decided) :
    taken decided <:+ decided.map (·.1) := by
  induction decided with
  | nil => exact List.suffix_rfl
  | cons d rest inductionHypothesis =>
      obtain ⟨a, kept⟩ := d
      obtain ⟨first, later⟩ := List.pairwise_cons.mp newest
      cases kept with
      | false => exact (inductionHypothesis later).trans (List.suffix_cons ..)
      | true =>
          have all : rest.filter (·.2) = rest :=
            List.filter_eq_self.mpr fun d member => first d member rfl
          rw [taken_cons_true, taken, all]
          exact List.suffix_rfl

/-- Everything is taken exactly when everything fits. -/
theorem all_taken_iff (within : used ≤ cap) :
    (∀ decided ∈ verdicts cost cap used items, decided.2 = true) ↔
      used + total cost items ≤ cap := by
  induction items generalizing used with
  | nil => exact ⟨fun _ => within, fun _ _ member => absurd member List.not_mem_nil⟩
  | cons a rest inductionHypothesis =>
      rw [total_cons]
      by_cases fits : used + cost a ≤ cap
      · rw [verdicts_cons_fits fits, List.forall_mem_cons, inductionHypothesis fits,
          ← Nat.add_assoc]
        exact ⟨fun both => both.2, fun rest_ => ⟨rfl, rest_⟩⟩
      · rw [verdicts_cons_exceeds (Nat.not_le.mp fits), List.forall_mem_cons]
        constructor
        · intro both
          cases both.1
        · intro all
          exact absurd (by omega) fits

/-- The line from the first item that fits alone on. -/
def fromFirst (cost : α → Nat) (cap used : Nat) (items : List α) : List α :=
  items.dropWhile fun a => cap < used + cost a

/-- **The newest items are taken** exactly when no item fits alone, or everything from the first
that does fits together. -/
theorem newest_iff :
    Newest (verdicts cost cap used items) ↔
      fromFirst cost cap used items = [] ∨
        used + total cost (fromFirst cost cap used items) ≤ cap := by
  unfold Newest fromFirst
  induction items with
  | nil => exact ⟨fun _ => .inl rfl, fun _ => .nil⟩
  | cons a rest inductionHypothesis =>
      by_cases fits : used + cost a ≤ cap
      · rw [verdicts_cons_fits fits, List.pairwise_cons,
          List.dropWhile_cons_of_neg (by simpa using fits)]
        have later := @all_taken_iff α cost cap (used + cost a) rest fits
        rw [total_cons, ← Nat.add_assoc]
        constructor
        · rintro ⟨all, -⟩
          exact .inr (later.mp fun decided member => all decided member rfl)
        · rintro (impossible | together)
          · cases impossible
          · have all := later.mpr together
            refine ⟨fun decided member _ => all decided member, ?_⟩
            exact List.pairwise_of_forall_mem_list fun _ _ decided member _ => all decided member
      · have exceeds := Nat.not_le.mp fits
        rw [verdicts_cons_exceeds exceeds, List.pairwise_cons,
          List.dropWhile_cons_of_pos (by simpa using exceeds), inductionHypothesis]
        exact ⟨fun both => both.2, fun rest_ => ⟨fun _ _ => (by simp), rest_⟩⟩

/-! ## Each alone -/

/-- The items that fit alone. -/
def fitting (cost : α → Nat) (cap used : Nat) (items : List α) : List α :=
  items.filter fun a => used + cost a ≤ cap

/-- When what fits alone also fits beside more than that, it is all taken. -/
theorem verdicts_of_fitting {now : Nat} (more : used ≤ now)
    (together : now + total cost (fitting cost cap used items) ≤ cap) :
    verdicts cost cap now items = items.map fun a => (a, decide (used + cost a ≤ cap)) := by
  induction items generalizing now with
  | nil => rfl
  | cons a rest inductionHypothesis =>
      unfold fitting at together
      by_cases fits : used + cost a ≤ cap
      · rw [List.filter_cons_of_pos (by simpa using fits), total_cons, ← Nat.add_assoc] at together
        have beside : now + cost a ≤ cap := by omega
        rw [verdicts_cons_fits beside, List.map_cons, decide_eq_true fits,
          inductionHypothesis (by omega) together]
      · rw [List.filter_cons_of_neg (by simpa using fits)] at together
        have exceeds : cap < now + cost a := by omega
        rw [verdicts_cons_exceeds exceeds, List.map_cons, decide_eq_false fits,
          inductionHypothesis more together]

/-- **Each alone or one beside the other.**  To take every item that fits alone is to take them
one beside the other exactly when all of them fit together. -/
theorem alone_iff (within : used ≤ cap) :
    (items.map fun a => (a, decide (used + cost a ≤ cap))) = verdicts cost cap used items ↔
      used + total cost (fitting cost cap used items) ≤ cap := by
  constructor
  · intro same
    have kept : fitting cost cap used items = taken (verdicts cost cap used items) := by
      rw [← same]
      unfold fitting taken
      rw [List.filter_map, List.map_map]
      exact (List.map_id _).symm
    rw [kept]
    exact taken_le within
  · intro together
    exact (verdicts_of_fitting (Nat.le_refl used) together).symm

end Admission

end Opencodepp.Library
