import Mathlib.Data.List.TakeWhile
import Opencodepp.Library.ByteString
import Opencodepp.Library.Loop
import Opencodepp.Library.Wildcard

/-!
# Matching names against a pattern

`glob_match` walks through pattern and subject at once and remembers the last star, to come back
to it with one more byte skipped.  The test for an equal byte comes before the test for a star,
so that a star of the pattern that meets a star of the subject is used up as an ordinary byte and
not remembered.  What the matcher accepts does match (`globMatch_sound`).  It accepts all that
matches when no star meets a star on the way, and only patterns and subjects without a star are
sure of that (`globMatch_matches`).
-/

set_option autoImplicit false

namespace Opencodepp.Tools

open Opencodepp.Library
open Opencodepp.Library.Wildcard

/-! ## The matcher -/

def star : UInt8 := ch '*'

def question : UInt8 := ch '?'

/-- Where the matcher stands: the pattern and the subject from `pi` and from `si` on, and for the
star at `star_p` the pattern behind it with the bytes of the subject from `star_s` up to `si`. -/
structure GlobState where
  pattern : Bytes
  subject : Bytes
  saved : Option (Bytes × Bytes)
  deriving Repr, DecidableEq

/-- Come back to the saved star with one more byte skipped. -/
def globRetry (s : GlobState) : Except Bool GlobState :=
  match s.saved with
  | some (behind, walked) => .ok ⟨behind, (walked ++ s.subject).tail, some (behind, [])⟩
  | none => .error false

/-- One round of the loop, or the answer when it is over. -/
def globStep (s : GlobState) : Except Bool GlobState :=
  match s.subject, s.pattern with
  | [], pattern => .error (decide (pattern.dropWhile (· == star) = []))
  | b :: subject, p :: pattern =>
      if p = question ∨ p = b then
        .ok ⟨pattern, subject, s.saved.map fun (behind, walked) => (behind, walked ++ [b])⟩
      else if p = star then .ok ⟨pattern, b :: subject, some (pattern, [])⟩
      else globRetry s
  | _ :: _, [] => globRetry s

/-- How far the star can still be moved, and how much there is to walk through. -/
def globSize (s : GlobState) : Nat × Nat :=
  (match s.saved with
    | some (_, walked) => walked.length + s.subject.length
    | none => s.subject.length + 1,
   s.pattern.length + s.subject.length)

/-- What a round does, by the case of the loop's body it takes. -/
theorem globStep_cases {s next : GlobState} (stepped : globStep s = .ok next) :
    (∃ p b pattern subject, s.pattern = p :: pattern ∧ s.subject = b :: subject ∧
      (p = question ∨ p = b) ∧ next = ⟨pattern, subject,
        s.saved.map fun (behind, walked) => (behind, walked ++ [b])⟩) ∨
    (∃ pattern b subject, s.pattern = star :: pattern ∧ s.subject = b :: subject ∧ b ≠ star ∧
      next = ⟨pattern, s.subject, some (pattern, [])⟩) ∨
    (∃ behind walked b subject, s.subject = b :: subject ∧ s.saved = some (behind, walked) ∧
      (∀ p pattern, s.pattern = p :: pattern → p ≠ star ∧ ¬(p = question ∨ p = b)) ∧
      next = ⟨behind, (walked ++ s.subject).tail, some (behind, [])⟩) := by
  obtain ⟨pattern, subject, saved⟩ := s
  have retried {s : GlobState} (retry : globRetry s = .ok next) : ∃ behind walked,
      s.saved = some (behind, walked) ∧
      next = ⟨behind, (walked ++ s.subject).tail, some (behind, [])⟩ := by
    unfold globRetry at retry
    cases kept : s.saved with
    | none => rw [kept] at retry; exact nomatch retry
    | some pair =>
        rw [kept] at retry
        exact ⟨pair.1, pair.2, rfl, (Except.ok.inj retry).symm⟩
  cases subject with
  | nil => exact nomatch stepped
  | cons b subject =>
      cases pattern with
      | nil =>
          obtain ⟨behind, walked, kept, rfl⟩ := retried stepped
          exact .inr (.inr ⟨behind, walked, b, subject, rfl, kept, nofun, rfl⟩)
      | cons p pattern =>
          simp only [globStep] at stepped
          split at stepped
          · next met =>
              exact .inl ⟨p, b, pattern, subject, rfl, rfl, met, (Except.ok.inj stepped).symm⟩
          · next unmet =>
              split at stepped
              · next isStar =>
                  refine .inr (.inl ⟨pattern, b, subject, by rw [isStar], rfl, ?_,
                    (Except.ok.inj stepped).symm⟩)
                  rintro rfl
                  exact unmet (.inr isStar)
              · next plain =>
                  obtain ⟨behind, walked, kept, rfl⟩ := retried stepped
                  refine .inr (.inr ⟨behind, walked, b, subject, rfl, kept, ?_, rfl⟩)
                  rintro _ _ ⟨⟩
                  exact ⟨plain, unmet⟩

theorem globStep_shrinks {s next : GlobState} (stepped : globStep s = .ok next) :
    Prod.Lex (· < ·) (· < ·) (globSize next) (globSize s) := by
  obtain ⟨p, b, pattern, subject, patternEq, subjectEq, -, rfl⟩ |
    ⟨pattern, b, subject, patternEq, subjectEq, -, rfl⟩ |
    ⟨behind, walked, b, subject, subjectEq, kept, -, rfl⟩ := globStep_cases stepped
  · rw [Prod.lex_def]
    unfold globSize
    rw [patternEq, subjectEq]
    cases s.saved with
    | none =>
        left
        simp
    | some pair =>
        right
        constructor
        · simp
          omega
        · simp
          omega
  · rw [Prod.lex_def]
    unfold globSize
    rw [patternEq, subjectEq]
    cases s.saved with
    | none =>
        left
        simp
    | some pair =>
        obtain ⟨behind, walked⟩ := pair
        cases walked with
        | nil =>
            right
            simp
        | cons c walked =>
            left
            simp
  · rw [Prod.lex_def]
    left
    unfold globSize
    rw [kept, subjectEq]
    simp

def globLoop : Loop GlobState Bool := ⟨globStep, globSize, globStep_shrinks⟩

/-- `glob_match`: whether the subject is accepted. -/
def globMatch (pattern subject : Bytes) : Bool := globLoop.run ⟨pattern, subject, none⟩

/-- How the loop ends: at the end of the subject, or at a mismatch without a saved star. -/
theorem globStep_ends {s : GlobState} {answer : Bool} (ended : globStep s = .error answer) :
    (s.subject = [] ∧ answer = decide (s.pattern.dropWhile (· == star) = [])) ∨
    (∃ b subject, s.subject = b :: subject ∧ s.saved = none ∧ answer = false ∧
      ∀ p pattern, s.pattern = p :: pattern → p ≠ star ∧ ¬(p = question ∨ p = b)) := by
  obtain ⟨pattern, subject, saved⟩ := s
  have retried {s : GlobState} (retry : globRetry s = .error answer) :
      s.saved = none ∧ answer = false := by
    unfold globRetry at retry
    cases kept : s.saved with
    | none =>
        rw [kept] at retry
        exact ⟨rfl, (Except.error.inj retry).symm⟩
    | some pair => rw [kept] at retry; exact nomatch retry
  cases subject with
  | nil => exact .inl ⟨rfl, (Except.error.inj ended).symm⟩
  | cons b subject =>
      cases pattern with
      | nil =>
          obtain ⟨unsaved, refused⟩ := retried ended
          exact .inr ⟨b, subject, rfl, unsaved, refused, nofun⟩
      | cons p pattern =>
          simp only [globStep] at ended
          split at ended
          · exact nomatch ended
          · next unmet =>
              split at ended
              · exact nomatch ended
              · next plain =>
                  obtain ⟨unsaved, refused⟩ := retried ended
                  refine .inr ⟨b, subject, rfl, unsaved, refused, ?_⟩
                  rintro _ _ ⟨⟩
                  exact ⟨plain, unmet⟩

/-! ## What may still match -/

theorem question_ne_star : question ≠ star := by decide

/-- The rest of the subject matches the rest of the pattern, or what the saved star was tried on
matches from that star on. -/
def GlobState.Open (s : GlobState) : Prop :=
  Matches star question s.pattern s.subject ∨ ∃ behind walked,
    s.saved = some (behind, walked) ∧
      Matches star question (star :: behind) (walked ++ s.subject)

/-- What was walked through since the saved star fits the part of the pattern behind it. -/
def GlobState.Walked (s : GlobState) : Prop :=
  ∀ behind walked, s.saved = some (behind, walked) → ∃ part,
    behind = part ++ s.pattern ∧ Fits star question part walked

/-- A star of the pattern meets a star of the subject. -/
def GlobState.StarMeetsStar (s : GlobState) : Prop :=
  s.pattern.head? = some star ∧ s.subject.head? = some star

/-- An answer that is given while the subject may still match is yes. -/
theorem accepted_of_ended {s : GlobState} {answer : Bool} (ended : globStep s = .error answer)
    (walkedSo : s.Walked) (isOpen : s.Open) : answer = true := by
  obtain ⟨atEnd, rfl⟩ | ⟨b, subject, subjectEq, unsaved, -, mismatch⟩ := globStep_ends ended
  · have matched : Matches star question s.pattern [] := by
      obtain found | ⟨behind, walked, kept, found⟩ := isOpen
      · rw [atEnd] at found
        exact found
      · obtain ⟨part, rfl, fits⟩ := walkedSo behind walked kept
        rw [atEnd] at found
        -- the star would have to skip nothing, since the part takes all that was walked through
        obtain ⟨skipped, later, split, found⟩ := (matches_star_iff question_ne_star).mp found
        obtain ⟨taken, rest, rfl, taking, found⟩ := (fits_append fits).mp found
        have lengths := congrArg List.length split
        have sameLength : walked.length = taken.length := by
          rw [← fits.length_eq, taking.length_eq]
        simp only [List.append_nil, List.length_append] at lengths
        have empty : rest = [] := List.length_eq_zero_iff.mp (by omega)
        rw [empty] at found
        exact found
    rw [matches_nil_right] at matched
    rw [decide_eq_true_eq, List.dropWhile_eq_nil_iff]
    intro p member
    rw [matched p member]
    rfl
  · obtain found | ⟨behind, walked, kept, -⟩ := isOpen
    · rw [subjectEq] at found
      cases patternEq : s.pattern with
      | nil =>
          rw [patternEq, matches_nil_left] at found
          exact nomatch found
      | cons p pattern =>
          obtain ⟨plain, unmet⟩ := mismatch p pattern patternEq
          rw [patternEq, matches_cons_iff plain] at found
          obtain ⟨a, rest, same, admitted, -⟩ := found
          rw [(List.cons.inj same).1] at unmet
          exact absurd admitted.2 unmet
    · rw [unsaved] at kept
      exact nomatch kept

/-- A subject that is accepted at the end may match. -/
theorem open_of_accepted {s : GlobState} (ended : globStep s = .error true) : s.Open := by
  obtain ⟨atEnd, stars⟩ | ⟨_, _, _, _, refused, _⟩ := globStep_ends ended
  · left
    rw [atEnd, matches_nil_right]
    have stars := of_decide_eq_true stars.symm
    rw [List.dropWhile_eq_nil_iff] at stars
    exact fun p member => eq_of_beq (stars p member)
  · exact nomatch refused

/-- A round never makes a subject match that did not. -/
theorem open_of_next {s next : GlobState} (stepped : globStep s = .ok next)
    (isOpen : next.Open) : s.Open := by
  obtain ⟨p, b, pattern, subject, patternEq, subjectEq, met, rfl⟩ |
    ⟨pattern, b, subject, patternEq, subjectEq, -, rfl⟩ |
    ⟨behind, walked, b, subject, subjectEq, kept, -, rfl⟩ := globStep_cases stepped
  · obtain found | ⟨behind, walked, kept, found⟩ := isOpen
    · left
      rw [patternEq, subjectEq]
      exact found.head met
    · obtain ⟨⟨before, walkedBefore⟩, keptBefore, same⟩ := Option.map_eq_some_iff.mp kept
      obtain ⟨rfl, rfl⟩ := Prod.mk.inj same
      refine .inr ⟨before, walkedBefore, keptBefore, ?_⟩
      rw [List.append_assoc] at found
      rw [subjectEq]
      exact found
  · left
    rw [patternEq]
    obtain found | ⟨_, _, kept, found⟩ := isOpen
    · exact .starEmpty found
    · obtain ⟨rfl, rfl⟩ := Prod.mk.inj (Option.some.inj kept)
      exact found
  · right
    refine ⟨behind, walked, kept, ?_⟩
    obtain ⟨c, rest, whole⟩ : ∃ c rest, walked ++ s.subject = c :: rest := by
      rw [subjectEq]
      cases walked with
      | nil => exact ⟨b, subject, rfl⟩
      | cons c walked => exact ⟨c, _, rfl⟩
    rw [whole] at isOpen ⊢
    obtain found | ⟨_, _, kept, found⟩ := isOpen
    · exact .starMore c (.starEmpty found)
    · obtain ⟨rfl, rfl⟩ := Prod.mk.inj (Option.some.inj kept)
      exact .starMore c found

/-- A round that does not use up a star of the pattern on a star of the subject loses nothing. -/
theorem open_next {s next : GlobState} (stepped : globStep s = .ok next)
    (apart : ¬s.StarMeetsStar) (kept : s.Walked ∧ s.Open) : next.Walked ∧ next.Open := by
  obtain ⟨walkedSo, isOpen⟩ := kept
  obtain ⟨p, b, pattern, subject, patternEq, subjectEq, met, rfl⟩ |
    ⟨pattern, b, subject, patternEq, subjectEq, -, rfl⟩ |
    ⟨behind, walked, b, subject, subjectEq, kept, mismatch, rfl⟩ := globStep_cases stepped
  · have plain : p ≠ star := by
      rintro rfl
      have isStar : b = star := (met.resolve_left (by decide)).symm
      exact apart ⟨by rw [patternEq]; rfl, by rw [subjectEq, isStar]; rfl⟩
    constructor
    · intro behind walked kept
      obtain ⟨⟨before, walkedBefore⟩, keptBefore, same⟩ := Option.map_eq_some_iff.mp kept
      obtain ⟨rfl, rfl⟩ := Prod.mk.inj same
      obtain ⟨part, rfl, fits⟩ := walkedSo before walkedBefore keptBefore
      exact ⟨part ++ [p], by rw [patternEq, List.append_assoc]; rfl,
        List.rel_append fits (.cons ⟨plain, met⟩ .nil)⟩
    · obtain found | ⟨before, walkedBefore, keptBefore, found⟩ := isOpen
      · left
        rw [patternEq, subjectEq, matches_cons_iff plain] at found
        obtain ⟨a, rest, same, -, found⟩ := found
        rw [(List.cons.inj same).2]
        exact found
      · refine .inr ⟨before, walkedBefore ++ [b], ?_, ?_⟩
        · dsimp only
          rw [keptBefore]
          rfl
        · rw [subjectEq] at found
          rw [List.append_assoc]
          exact found
  · constructor
    · intro behind walked kept
      obtain ⟨rfl, rfl⟩ := Prod.mk.inj (Option.some.inj kept)
      exact ⟨[], rfl, .nil⟩
    · refine .inr ⟨pattern, [], rfl, ?_⟩
      obtain found | ⟨before, walkedBefore, keptBefore, found⟩ := isOpen
      · rw [patternEq] at found
        exact found
      · -- the star before this one has done its part
        obtain ⟨part, rfl, fits⟩ := walkedSo before walkedBefore keptBefore
        rw [patternEq] at found
        exact (matches_star_iff_next question_ne_star fits).mp found
  · constructor
    · intro behind walked kept
      obtain ⟨rfl, rfl⟩ := Prod.mk.inj (Option.some.inj kept)
      exact ⟨[], rfl, .nil⟩
    · have mismatched : ¬Matches star question s.pattern s.subject := by
        rw [subjectEq]
        cases patternEq : s.pattern with
        | nil =>
            rw [matches_nil_left]
            exact nofun
        | cons p pattern =>
            obtain ⟨plain, unmet⟩ := mismatch p pattern patternEq
            rw [matches_cons_iff plain]
            rintro ⟨a, rest, same, admitted, -⟩
            rw [(List.cons.inj same).1] at unmet
            exact unmet admitted.2
      obtain found | ⟨before, walkedBefore, keptBefore, found⟩ := isOpen
      · exact absurd found mismatched
      · obtain ⟨rfl, rfl⟩ := Prod.mk.inj (Option.some.inj (kept.symm.trans keptBefore))
        obtain ⟨part, rfl, fits⟩ := walkedSo behind walked kept
        obtain ⟨c, rest, whole⟩ : ∃ c rest, walked ++ s.subject = c :: rest := by
          rw [subjectEq]
          cases walked with
          | nil => exact ⟨b, subject, rfl⟩
          | cons c walked => exact ⟨c, _, rfl⟩
        refine .inr ⟨part ++ s.pattern, [], rfl, ?_⟩
        rw [matches_star_iff_later question_ne_star fits whole mismatched] at found
        rw [whole]
        exact found

/-! ## What the matcher accepts -/

/-- On the way through pattern and subject no star meets a star. -/
def StarsApart (pattern subject : Bytes) : Prop :=
  ∀ reached, globLoop.Reaches ⟨pattern, subject, none⟩ reached → ¬reached.StarMeetsStar

theorem globMatch_sound {pattern subject : Bytes} (accepted : globMatch pattern subject = true) :
    Matches star question pattern subject := by
  have isOpen : GlobState.Open ⟨pattern, subject, none⟩ :=
    Loop.run_backward GlobState.Open (· = true)
      (fun s answer ended yes => open_of_accepted (yes ▸ ended))
      (fun s next stepped => open_of_next stepped) accepted
  obtain found | ⟨_, _, kept, _⟩ := isOpen
  · exact found
  · exact nomatch kept

theorem globMatch_complete {pattern subject : Bytes} (apart : StarsApart pattern subject)
    (found : Matches star question pattern subject) : globMatch pattern subject = true :=
  Loop.run_forward (fun s : GlobState => ¬s.StarMeetsStar)
    (fun s : GlobState => s.Walked ∧ s.Open) (· = true)
    (fun s answer ended kept => accepted_of_ended ended kept.1 kept.2)
    (fun s next stepped apart kept => open_next stepped apart kept) apart ⟨nofun, .inl found⟩

/-- Without a star in the pattern, none is ever met. -/
theorem starsApart_of_pattern {pattern : Bytes} (plain : star ∉ pattern) (subject : Bytes) :
    StarsApart pattern subject := by
  intro reached path meets
  have kept : star ∉ reached.pattern ∧ reached.saved = none :=
    Loop.reaches_invariant (fun s => star ∉ s.pattern ∧ s.saved = none)
      (by
        rintro s next stepped ⟨without, unsaved⟩
        obtain ⟨p, b, pattern, subject, patternEq, -, -, rfl⟩ |
          ⟨pattern, b, subject, patternEq, -, -, rfl⟩ |
          ⟨behind, walked, b, subject, -, kept, -, rfl⟩ := globStep_cases stepped
        · rw [patternEq] at without
          exact ⟨fun member => without (List.mem_cons_of_mem p member), by
            dsimp only
            rw [unsaved]
            rfl⟩
        · rw [patternEq] at without
          exact absurd (List.mem_cons_self ..) without
        · rw [unsaved] at kept
          exact nomatch kept)
      path ⟨plain, rfl⟩
  exact kept.1 (List.mem_of_head? meets.1)

/-- Without a star in the subject, none is ever met. -/
theorem starsApart_of_subject {subject : Bytes} (plain : star ∉ subject) (pattern : Bytes) :
    StarsApart pattern subject := by
  intro reached path meets
  have kept : star ∉ reached.subject ∧
      ∀ behind walked, reached.saved = some (behind, walked) → star ∉ walked :=
    Loop.reaches_invariant (fun s => star ∉ s.subject ∧
        ∀ behind walked, s.saved = some (behind, walked) → star ∉ walked)
      (by
        rintro s next stepped ⟨without, walkedWithout⟩
        obtain ⟨p, b, pattern, subject, -, subjectEq, -, rfl⟩ |
          ⟨pattern, b, subject, -, -, -, rfl⟩ |
          ⟨behind, walked, b, subject, -, kept, -, rfl⟩ := globStep_cases stepped
        · rw [subjectEq] at without
          constructor
          · exact fun member => without (List.mem_cons_of_mem b member)
          · intro behind walked kept
            obtain ⟨⟨before, walkedBefore⟩, keptBefore, same⟩ := Option.map_eq_some_iff.mp kept
            obtain ⟨rfl, rfl⟩ := Prod.mk.inj same
            have earlier := walkedWithout before walkedBefore keptBefore
            have other : star ≠ b := fun same => without (same ▸ List.mem_cons_self ..)
            simp [earlier, other]
        · refine ⟨without, fun behind walked kept => ?_⟩
          obtain ⟨rfl, rfl⟩ := Prod.mk.inj (Option.some.inj kept)
          exact List.not_mem_nil
        · constructor
          · intro member
            obtain member | member := List.mem_append.mp (List.mem_of_mem_tail member)
            · exact walkedWithout behind walked kept member
            · exact without member
          · intro behind walked kept
            obtain ⟨rfl, rfl⟩ := Prod.mk.inj (Option.some.inj kept)
            exact List.not_mem_nil)
      path ⟨plain, nofun⟩
  exact kept.1 (List.mem_of_head? meets.2)

/-- Equal bytes are walked over, stars included. -/
theorem globMatch_append_self (shared pattern subject : Bytes) :
    globMatch (shared ++ pattern) (shared ++ subject) = globMatch pattern subject := by
  induction shared with
  | nil => rfl
  | cons b shared inductionHypothesis =>
      rw [← inductionHypothesis]
      unfold globMatch
      exact Loop.run_of_ok (if_pos (.inr rfl))

theorem globMatch_nil_cons (b : UInt8) (subject : Bytes) :
    globMatch [] (b :: subject) = false := by
  unfold globMatch
  exact Loop.run_of_error rfl

/-- A pattern with a star refuses itself with more behind the star. -/
theorem globMatch_longer (before behind : Bytes) (b : UInt8) :
    globMatch (before ++ star :: behind) (before ++ star :: (behind ++ b :: behind)) = false ∧
    Matches star question (before ++ star :: behind)
      (before ++ star :: (behind ++ b :: behind)) := by
  constructor
  · have walked := globMatch_append_self (before ++ star :: behind) [] (b :: behind)
    rw [List.append_nil, List.append_assoc, List.cons_append] at walked
    rw [walked]
    exact globMatch_nil_cons b behind
  · apply matches_append_self
    refine (matches_star_iff question_ne_star).mpr
      ⟨star :: (behind ++ [b]), behind, by simp, ?_⟩
    have itself : Matches star question (behind ++ []) (behind ++ []) :=
      matches_append_self behind .nil
    rw [List.append_nil] at itself
    exact itself

/-- A subject with a star is refused by a pattern that matches it. -/
theorem globMatch_shorter (before behind : Bytes) : ∃ pattern,
    globMatch pattern (before ++ star :: behind) = false ∧
      Matches star question pattern (before ++ star :: behind) := by
  cases behind with
  | nil =>
      refine ⟨before ++ [star, question], ?_, matches_append_self before ?_⟩
      · rw [globMatch_append_self]
        have walked := globMatch_append_self [star] [question] []
        rw [List.append_nil, List.singleton_append] at walked
        rw [walked]
        unfold globMatch
        exact Loop.run_of_error rfl
      · exact .starEmpty (.one star .nil)
  | cons b behind =>
      refine ⟨before ++ [star], ?_, matches_append_self before ?_⟩
      · rw [globMatch_append_self]
        have walked := globMatch_append_self [star] [] (b :: behind)
        rw [List.append_nil, List.singleton_append] at walked
        rw [walked]
        exact globMatch_nil_cons b behind
      · exact (matches_star_iff question_ne_star).mpr
          ⟨star :: b :: behind, [], (List.append_nil _).symm, .nil⟩

/-- What is accepted matches; all that matches is accepted where no star meets a star, and for
all subjects or for all patterns only where the other one has no star. -/
theorem globMatch_matches (pattern subject : Bytes) :
    (globMatch pattern subject = true → Matches star question pattern subject) ∧
    (StarsApart pattern subject →
      (globMatch pattern subject = true ↔ Matches star question pattern subject)) ∧
    ((∀ subject,
      (globMatch pattern subject = true ↔ Matches star question pattern subject)) ↔
        star ∉ pattern) ∧
    ((∀ pattern,
      (globMatch pattern subject = true ↔ Matches star question pattern subject)) ↔
        star ∉ subject) := by
  have both {pattern subject : Bytes} (apart : StarsApart pattern subject) :
      globMatch pattern subject = true ↔ Matches star question pattern subject :=
    ⟨globMatch_sound, globMatch_complete apart⟩
  refine ⟨globMatch_sound, both, ⟨?_, ?_⟩, ⟨?_, ?_⟩⟩
  · intro agrees member
    obtain ⟨before, behind, rfl⟩ := List.append_of_mem member
    obtain ⟨refused, found⟩ := globMatch_longer before behind star
    rw [(agrees _).mpr found] at refused
    exact nomatch refused
  · exact fun plain subject => both (starsApart_of_pattern plain subject)
  · intro agrees member
    obtain ⟨before, behind, rfl⟩ := List.append_of_mem member
    obtain ⟨pattern, refused, found⟩ := globMatch_shorter before behind
    rw [(agrees pattern).mpr found] at refused
    exact nomatch refused
  · exact fun plain pattern => both (starsApart_of_subject plain pattern)

/-- A name without stars is found by a pattern with one. -/
theorem globMatch_source :
    globMatch (str "*.cpp") (str "main.cpp") = true ∧ star ∉ str "main.cpp" := by
  have plain : star ∉ str "main.cpp" := by decide
  have found : Matches star question (str "*.cpp") (str "main.cpp") :=
    (matches_star_iff question_ne_star).mpr ⟨str "main", str ".cpp", rfl,
      by
        have itself : Matches star question (str ".cpp" ++ []) (str ".cpp" ++ []) :=
          matches_append_self (str ".cpp") .nil
        exact itself⟩
  have forNames := (globMatch_matches (str "*.cpp") (str "main.cpp")).2.2.2
  exact ⟨(forNames.mpr plain (str "*.cpp")).mpr found, plain⟩

/-- The pattern that matches everything refuses a name that begins with a star. -/
theorem globMatch_starred : globMatch (str "*") (str "*x") = false ∧
    Matches star question (str "*") (str "*x") :=
  globMatch_longer [] [] (ch 'x')

end Opencodepp.Tools
