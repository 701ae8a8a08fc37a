import Mathlib.Data.List.Forall2
import Mathlib.Data.List.Basic

/-!
# Patterns with wildcards

A pattern is a sequence in which one symbol stands for any possibly empty sequence, another for
any single symbol, and every other symbol for itself.  `Matches` is that meaning.  The part of a
pattern between two stars only fits pieces of its own length (`fits_append`), so that once such a
part has fitted somewhere, where the star before it began no longer matters
(`matches_star_iff_later`).
-/

set_option autoImplicit false

namespace Opencodepp.Library

namespace Wildcard

variable {α : Type} (star one : α)

/-- The subject is one of those the pattern stands for. -/
inductive Matches : List α → List α → Prop where
  | nil : Matches [] []
  | starEmpty {pattern subject : List α} :
      Matches pattern subject → Matches (star :: pattern) subject
  | starMore {pattern subject : List α} (a : α) :
      Matches (star :: pattern) subject → Matches (star :: pattern) (a :: subject)
  | one {pattern subject : List α} (a : α) :
      Matches pattern subject → Matches (one :: pattern) (a :: subject)
  | same {pattern subject : List α} {a : α} : a ≠ star → a ≠ one →
      Matches pattern subject → Matches (a :: pattern) (a :: subject)

/-- A symbol of the pattern that is no star and the symbol it stands for. -/
def Admits (p a : α) : Prop := p ≠ star ∧ (p = one ∨ p = a)

/-- A part of a pattern without a star and a piece of its length that it stands for. -/
abbrev Fits : List α → List α → Prop := List.Forall₂ (Admits star one)

variable {star one}

theorem Matches.head {p a : α} {pattern subject : List α} (admitted : p = one ∨ p = a)
    (rest : Matches star one pattern subject) :
    Matches star one (p :: pattern) (a :: subject) := by
  by_cases isOne : p = one
  · rw [isOne]
    exact .one a rest
  · have same : p = a := admitted.resolve_left isOne
    by_cases isStar : p = star
    · rw [isStar]
      exact .starMore a (.starEmpty rest)
    · rw [← same]
      exact .same isStar isOne rest

/-- A star stands for whatever comes before what the rest of the pattern stands for. -/
theorem matches_star_iff (distinct : one ≠ star) {pattern subject : List α} :
    Matches star one (star :: pattern) subject ↔
      ∃ skipped rest, subject = skipped ++ rest ∧ Matches star one pattern rest := by
  constructor
  · intro found
    generalize whole : star :: pattern = starred at found
    induction found with
    | nil => cases whole
    | starEmpty rest =>
        obtain ⟨-, rfl⟩ := List.cons.inj whole
        exact ⟨[], _, rfl, rest⟩
    | starMore a _ inductionHypothesis =>
        obtain ⟨skipped, rest, rfl, found⟩ := inductionHypothesis whole
        exact ⟨a :: skipped, rest, rfl, found⟩
    | one => exact absurd (List.cons.inj whole).1.symm distinct
    | same other => exact absurd (List.cons.inj whole).1.symm other
  · rintro ⟨skipped, rest, rfl, found⟩
    induction skipped with
    | nil => exact .starEmpty found
    | cons a skipped inductionHypothesis => exact .starMore a inductionHypothesis

/-- A symbol that is no star stands for one symbol. -/
theorem matches_cons_iff {p : α} (plain : p ≠ star) {pattern subject : List α} :
    Matches star one (p :: pattern) subject ↔
      ∃ a rest, subject = a :: rest ∧ Admits star one p a ∧ Matches star one pattern rest := by
  constructor
  · intro found
    cases found with
    | starEmpty => exact absurd rfl plain
    | starMore => exact absurd rfl plain
    | one a rest => exact ⟨a, _, rfl, ⟨plain, .inl rfl⟩, rest⟩
    | same _ _ rest => exact ⟨p, _, rfl, ⟨plain, .inr rfl⟩, rest⟩
  · rintro ⟨a, rest, rfl, admitted, found⟩
    exact found.head admitted.2

theorem matches_nil_left {subject : List α} : Matches star one [] subject ↔ subject = [] := by
  constructor
  · intro found
    cases found
    rfl
  · rintro rfl
    exact .nil

/-- Only stars stand for the empty sequence. -/
theorem matches_nil_right {pattern : List α} :
    Matches star one pattern [] ↔ ∀ p ∈ pattern, p = star := by
  induction pattern with
  | nil => simp [matches_nil_left]
  | cons p pattern inductionHypothesis =>
      rw [List.forall_mem_cons, ← inductionHypothesis]
      constructor
      · intro found
        cases found with
        | starEmpty rest => exact ⟨rfl, rest⟩
      · rintro ⟨rfl, rest⟩
        exact .starEmpty rest

/-- A sequence stands for itself, whatever symbols are in it. -/
theorem matches_append_self (shared : List α) {pattern subject : List α}
    (rest : Matches star one pattern subject) :
    Matches star one (shared ++ pattern) (shared ++ subject) := by
  induction shared with
  | nil => exact rest
  | cons a shared inductionHypothesis => exact inductionHypothesis.head (.inr rfl)

/-- A part without stars stands for pieces of its own length. -/
theorem fits_append {part piece : List α} (fits : Fits star one part piece)
    {pattern subject : List α} :
    Matches star one (part ++ pattern) subject ↔
      ∃ taken rest, subject = taken ++ rest ∧ Fits star one part taken ∧
        Matches star one pattern rest := by
  induction fits generalizing subject with
  | nil =>
      constructor
      · intro found
        exact ⟨[], subject, rfl, .nil, found⟩
      · rintro ⟨taken, rest, rfl, fits, found⟩
        cases fits
        exact found
  | @cons p a part piece admitted _ inductionHypothesis =>
      rw [List.cons_append, matches_cons_iff admitted.1]
      constructor
      · rintro ⟨b, rest, rfl, admits, found⟩
        obtain ⟨taken, rest, rfl, fits, found⟩ := inductionHypothesis.mp found
        exact ⟨b :: taken, rest, rfl, .cons admits fits, found⟩
      · rintro ⟨taken, rest, rfl, fits, found⟩
        cases fits with
        | cons admits fits =>
            exact ⟨_, _, rfl, admits, inductionHypothesis.mpr ⟨_, _, rfl, fits, found⟩⟩

/-- Where the part behind a star has fitted, the star need not begin there when nothing that
follows matches. -/
theorem matches_star_iff_later (distinct : one ≠ star) {part piece pattern : List α} {a : α}
    {subject rest : List α} (fits : Fits star one part piece)
    (whole : piece ++ subject = a :: rest) (mismatched : ¬Matches star one pattern subject) :
    Matches star one (star :: (part ++ pattern)) (piece ++ subject) ↔
      Matches star one (star :: (part ++ pattern)) rest := by
  constructor
  · intro found
    obtain ⟨skipped, later, split, found⟩ := (matches_star_iff distinct).mp found
    cases skipped with
    | nil =>
        obtain ⟨taken, behind, cut, taking, found⟩ := (fits_append fits).mp found
        have sameLength : piece.length = taken.length := by
          rw [← fits.length_eq, taking.length_eq]
        have same := List.append_inj (split.trans cut) sameLength
        exact absurd (same.2 ▸ found) mismatched
    | cons b skipped =>
        rw [whole] at split
        obtain ⟨-, rfl⟩ := List.cons.inj split
        exact (matches_star_iff distinct).mpr ⟨skipped, later, rfl, found⟩
  · intro found
    rw [whole]
    exact .starMore a found

/-- Where the part between two stars has fitted, the first star need not be looked at again. -/
theorem matches_star_iff_next (distinct : one ≠ star) {part piece pattern subject : List α}
    (fits : Fits star one part piece) :
    Matches star one (star :: (part ++ star :: pattern)) (piece ++ subject) ↔
      Matches star one (star :: pattern) subject := by
  constructor
  · intro found
    obtain ⟨skipped, later, split, found⟩ := (matches_star_iff distinct).mp found
    obtain ⟨taken, behind, rfl, taking, found⟩ := (fits_append fits).mp found
    have sameLength : piece.length = taken.length := by
      rw [← fits.length_eq, taking.length_eq]
    rw [← List.append_assoc] at split
    obtain ⟨between, longer, shorter⟩ :
        ∃ between, skipped ++ taken = piece ++ between ∧ subject = between ++ behind := by
      obtain ⟨between, longer, shorter⟩ | ⟨between, longer, shorter⟩ :=
        List.append_eq_append_iff.mp split
      · exact ⟨between, longer, shorter⟩
      · have lengths := congrArg List.length longer
        rw [List.length_append, List.length_append] at lengths
        have empty : between = [] := List.length_eq_zero_iff.mp (by omega)
        subst empty
        exact ⟨[], by simpa using longer.symm, by simpa using shorter.symm⟩
    obtain ⟨more, last, rfl, matched⟩ := (matches_star_iff distinct).mp found
    rw [← List.append_assoc] at shorter
    exact (matches_star_iff distinct).mpr ⟨between ++ more, last, shorter, matched⟩
  · intro found
    exact .starEmpty ((fits_append fits).mpr ⟨piece, subject, rfl, fits, found⟩)

end Wildcard

end Opencodepp.Library
