import Mathlib.Logic.Basic

/-!
# Nested brackets

Words of several kinds of brackets.  `Balanced` words are those in which every bracket that opens
is closed by its partner, with a balanced word between them.  A stack of the brackets that are
still open decides it: `settle` takes the brackets one by one and fails at the first that does not
fit, and it ends with nothing open exactly on the balanced words (`settle_iff_balanced`).
-/

set_option autoImplicit false

namespace Opencodepp.Library

namespace Brackets

variable {α : Type} (opens : α → Bool) (partners : α → α → Bool)

/-- Every opening bracket is closed by its partner, properly nested. -/
inductive Balanced : List α → Prop where
  | nil : Balanced []
  | nest {opening closing : α} {inner rest : List α} : opens opening = true →
      opens closing = false → partners opening closing = true → Balanced inner → Balanced rest →
      Balanced (opening :: (inner ++ closing :: rest))

/-- What is left open, the last one first, unless a bracket does not fit. -/
def settle : List α → List α → Option (List α)
  | stack, [] => some stack
  | stack, a :: rest =>
      if opens a then settle (a :: stack) rest
      else
        match stack with
        | [] => none
        | top :: below => if partners top a then settle below rest else none

/-- A word that closes what is open, with balanced words between. -/
def Closes : List α → List α → Prop
  | [], word => Balanced opens partners word
  | top :: below, word => ∃ inner closing rest, word = inner ++ closing :: rest ∧
      Balanced opens partners inner ∧ opens closing = false ∧ partners top closing = true ∧
        Closes below rest

variable {opens partners}

theorem settle_opening {a : α} (isOpening : opens a = true) (stack rest : List α) :
    settle opens partners stack (a :: rest) = settle opens partners (a :: stack) rest :=
  if_pos isOpening

theorem settle_closing_nil {a : α} (isClosing : opens a = false) (rest : List α) :
    settle opens partners [] (a :: rest) = none :=
  if_neg (Bool.eq_false_iff.mp isClosing)

theorem settle_closing_cons {a : α} (isClosing : opens a = false) (top : α)
    (below rest : List α) : settle opens partners (top :: below) (a :: rest) =
      if partners top a then settle opens partners below rest else none :=
  if_neg (Bool.eq_false_iff.mp isClosing)

/-- A balanced word may come before whatever closes what is open. -/
theorem Closes.append {stack first word : List α} (balanced : Balanced opens partners first)
    (closes : Closes opens partners stack word) :
    Closes opens partners stack (first ++ word) := by
  induction balanced generalizing stack word with
  | nil => exact closes
  | @nest opening closing inner rest isOpening isClosing pairs nested _ _ later =>
      have behind := later closes
      cases stack with
      | nil =>
          have whole := Balanced.nest isOpening isClosing pairs nested behind
          change Balanced opens partners _
          simpa using whole
      | cons top below =>
          obtain ⟨between, last, end_, split, balancedBetween, closesLast, lastPairs, closesEnd⟩ :=
            behind
          refine ⟨opening :: (inner ++ closing :: between), last, end_, ?_,
            Balanced.nest isOpening isClosing pairs nested balancedBetween, closesLast, lastPairs,
            closesEnd⟩
          rw [List.cons_append, List.append_assoc, List.cons_append, split]
          simp

/-- What closes one more bracket than the stack holds closes the stack, with the bracket put in
front. -/
theorem closes_cons_iff {a : α} (isOpening : opens a = true) {stack word : List α} :
    Closes opens partners stack (a :: word) ↔ Closes opens partners (a :: stack) word := by
  constructor
  · intro closes
    cases stack with
    | nil =>
        cases closes with
        | nest _ isClosing pairs nested rest =>
            exact ⟨_, _, _, rfl, nested, isClosing, pairs, rest⟩
    | cons top below =>
        obtain ⟨inner, closing, rest, split, balanced, isClosing, pairs, later⟩ := closes
        cases balanced with
        | nil =>
            obtain ⟨rfl, -⟩ := List.cons.inj split
            rw [isOpening] at isClosing
            exact nomatch isClosing
        | @nest _ partner between behind _ closesPartner pairsPartner nested balancedBehind =>
            obtain ⟨rfl, rfl⟩ := List.cons.inj split
            exact ⟨between, partner, behind ++ closing :: rest, by simp, nested, closesPartner,
              pairsPartner, behind, closing, rest, rfl, balancedBehind, isClosing, pairs, later⟩
  · rintro ⟨inner, closing, rest, rfl, balanced, isClosing, pairs, later⟩
    have alone : Balanced opens partners (a :: (inner ++ closing :: [])) :=
      .nest isOpening isClosing pairs balanced .nil
    have whole := Closes.append alone later
    simpa using whole

/-- A bracket that closes has its partner on top. -/
theorem closes_closing_iff {a : α} (isClosing : opens a = false) {stack word : List α} :
    Closes opens partners stack (a :: word) ↔ ∃ top below, stack = top :: below ∧
      partners top a = true ∧ Closes opens partners below word := by
  constructor
  · intro closes
    cases stack with
    | nil =>
        cases closes with
        | nest isOpening =>
            rw [isOpening] at isClosing
            exact nomatch isClosing
    | cons top below =>
        obtain ⟨inner, closing, rest, split, balanced, _, pairs, later⟩ := closes
        cases balanced with
        | nil =>
            obtain ⟨rfl, rfl⟩ := List.cons.inj split
            exact ⟨top, below, rfl, pairs, later⟩
        | nest isOpening =>
            obtain ⟨rfl, -⟩ := List.cons.inj split
            rw [isOpening] at isClosing
            exact nomatch isClosing
  · rintro ⟨top, below, rfl, pairs, later⟩
    exact ⟨[], a, word, rfl, .nil, isClosing, pairs, later⟩

/-- Nothing is left open exactly when the word closes what was open. -/
theorem settle_iff_closes {word : List α} : ∀ {stack : List α},
    settle opens partners stack word = some [] ↔ Closes opens partners stack word := by
  induction word with
  | nil =>
      intro stack
      cases stack with
      | nil => exact ⟨fun _ => .nil, fun _ => rfl⟩
      | cons top below =>
          constructor
          · exact nofun
          · rintro ⟨inner, closing, rest, split, -⟩
            exact absurd split (by simp)
  | cons a word inductionHypothesis =>
      intro stack
      cases kind : opens a with
      | true => rw [settle_opening kind, inductionHypothesis, closes_cons_iff kind]
      | false =>
          rw [closes_closing_iff kind]
          cases stack with
          | nil =>
              rw [settle_closing_nil kind]
              exact ⟨nofun, fun ⟨_, _, split, _⟩ => nomatch split⟩
          | cons top below =>
              rw [settle_closing_cons kind]
              constructor
              · intro settled
                split at settled
                · next pairs => exact ⟨top, below, rfl, pairs, inductionHypothesis.mp settled⟩
                · exact nomatch settled
              · rintro ⟨_, _, same, pairs, closes⟩
                obtain ⟨rfl, rfl⟩ := List.cons.inj same
                rw [if_pos pairs]
                exact inductionHypothesis.mpr closes

theorem settle_iff_balanced {word : List α} :
    settle opens partners [] word = some [] ↔ Balanced opens partners word := settle_iff_closes

end Brackets

end Opencodepp.Library
