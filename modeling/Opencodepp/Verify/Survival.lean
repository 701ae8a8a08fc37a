import Mathlib.Data.List.Sublists
import Opencodepp.Verify.Gate

/-!
# Which lines survive an edit

The diff stage suspects a small file of having been reformatted when more than four fifths of its
lines differ from the lines that stood at the same places before.  The lines that survive an edit
are those of a longest common subsequence, and they need not keep their places: one line put in
front moves all the others.  Where they do, the suspicion is only raised where fewer than a fifth
of the lines survive (`large_fraction_justified`); of the edits that insert lines only, or delete
lines only, the theorem says exactly when it is.
-/

set_option autoImplicit false

namespace Opencodepp.Verify

open Opencodepp.Library
open Opencodepp.Tools

/-- How the complaint about too many changed lines begins. -/
def largeFraction : Bytes := str "large fraction of lines changed ("

/-- The stage complains about too many changed lines. -/
def ReportsLargeFraction (p : EditProposal) : Prop :=
  ∃ issue ∈ checkDiff p, largeFraction.isPrefixOf issue = true

/-- Fewer than a fifth of the lines after the edit are in a longest common subsequence with the
lines before it. -/
def FewSurvive (p : EditProposal) : Prop :=
  ∀ common : List Bytes, common.Sublist (textLines p.beforeContent) →
    common.Sublist (textLines p.afterContent) →
      5 * common.length < (textLines p.afterContent).length

/-- The patch makes of the text before what the proposal says, or a text without a patch is a new
one. -/
def Consistent (p : EditProposal) : Prop :=
  if p.patchText = [] then p.afterContent ≠ p.beforeContent
  else ∃ hunks, Patch.parse p.patchText = .ok hunks ∧
    Patch.apply hunks p.beforeContent = .ok p.afterContent

/-- The places at which two texts have different lines, a missing line being an empty one. -/
def differingPlaces (before after : List Bytes) : Nat :=
  (List.range (max before.length after.length)).countP
    fun i => before.getD i [] ≠ after.getD i []

theorem mem_checkDiff_iff {p : EditProposal} {issue : Bytes}
    (large : largeFraction.isPrefixOf issue = true) :
    issue ∈ checkDiff p ↔ Consistent p ∧ issue ∈ checkMinimal p := by
  have other {first : Bytes} (different : largeFraction.isPrefixOf first = false) :
      issue ∉ [first] := by
    intro member
    rw [List.mem_singleton.mp member, different] at large
    exact nomatch large
  unfold checkDiff Consistent
  by_cases noPatch : p.patchText = []
  · rw [if_neg (not_not.mpr noPatch), if_pos noPatch]
    by_cases same : p.afterContent = p.beforeContent
    · rw [if_pos same]
      exact ⟨fun member => absurd member (other (by decide)), fun both => absurd same both.1⟩
    · rw [if_neg same]
      exact ⟨fun member => ⟨same, member⟩, fun both => both.2⟩
  · rw [if_pos noPatch, if_neg noPatch]
    cases parsed : Patch.parse p.patchText with
    | error e =>
        dsimp only
        constructor
        · intro member
          exact absurd member (other rfl)
        · rintro ⟨⟨hunks, impossible, -⟩, -⟩
          exact nomatch impossible
    | ok hunks =>
        dsimp only
        cases applied : Patch.apply hunks p.beforeContent with
        | error e =>
            dsimp only
            constructor
            · intro member
              exact absurd member (other (by decide))
            · rintro ⟨⟨found, same, impossible⟩, -⟩
              rw [← Except.ok.inj same, applied] at impossible
              exact nomatch impossible
        | ok result =>
            dsimp only
            by_cases differs : result ≠ p.afterContent
            · rw [if_pos differs]
              constructor
              · intro member
                exact absurd member (other (by decide))
              · rintro ⟨⟨found, same, yields⟩, -⟩
                rw [← Except.ok.inj same, applied] at yields
                exact absurd (Except.ok.inj yields) differs
            · rw [if_neg differs]
              have yields : result = p.afterContent := not_not.mp differs
              exact ⟨fun member => ⟨⟨hunks, rfl, by rw [applied, yields]⟩, member⟩,
                fun both => both.2⟩

/-- When the stage complains about too many changed lines. -/
theorem reportsLargeFraction_iff (p : EditProposal) :
    ReportsLargeFraction p ↔ Consistent p ∧ (textLines p.afterContent).length < 20 ∧
      2 < (textLines p.afterContent).length ∧ p.beforeContent ≠ [] ∧
      4 * (textLines p.afterContent).length <
        5 * (differingPlaces (textLines p.beforeContent) (textLines p.afterContent) % 2 ^ 32) := by
  have minimal : (∃ issue ∈ checkMinimal p, largeFraction.isPrefixOf issue = true) ↔
      (textLines p.afterContent).length < 20 ∧ 2 < (textLines p.afterContent).length ∧
        p.beforeContent ≠ [] ∧ 4 * (textLines p.afterContent).length <
          5 * (differingPlaces (textLines p.beforeContent) (textLines p.afterContent) %
            2 ^ 32) := by
    unfold checkMinimal
    dsimp only
    split
    · next complained =>
        simp only [Bool.and_eq_true, decide_eq_true_eq] at complained
        obtain ⟨⟨⟨small, nonempty⟩, many⟩, more⟩ := complained
        exact ⟨fun _ => ⟨small, more, nonempty, many⟩,
          fun _ => ⟨_, List.mem_singleton.mpr rfl, rfl⟩⟩
    · next silent =>
        constructor
        · rintro ⟨_, member, -⟩
          exact nomatch member
        · rintro ⟨small, more, nonempty, many⟩
          refine absurd ?_ silent
          simp only [Bool.and_eq_true, decide_eq_true_eq]
          exact ⟨⟨⟨small, nonempty⟩, many⟩, more⟩
  rw [← minimal]
  constructor
  · rintro ⟨issue, member, large⟩
    obtain ⟨consistent, complaint⟩ := (mem_checkDiff_iff large).mp member
    exact ⟨consistent, issue, complaint, large⟩
  · rintro ⟨consistent, issue, complaint, large⟩
    exact ⟨issue, (mem_checkDiff_iff large).mpr ⟨consistent, complaint⟩, large⟩

/-! ## Lines that keep their places -/

/-- The lines of the new text that stood at the same places before, a missing line being an empty
one. -/
def keptPlaces (before after : List Bytes) : Nat :=
  (List.range after.length).countP fun i => before.getD i [] = after.getD i []

/-- The lines of the old text behind the end of the new one, but for empty ones. -/
def cutOff (before after : List Bytes) : Nat := (before.drop after.length).countP (· ≠ [])

/-- No text that is left by deleting lines of either text is longer than the lines that keep
their places. -/
def KeepPlaces (before after : List Bytes) : Prop :=
  ∀ common : List Bytes, common.Sublist before → common.Sublist after →
    common.length ≤ keptPlaces before after

theorem keptPlaces_le (before after : List Bytes) : keptPlaces before after ≤ after.length :=
  List.countP_le_length.trans_eq List.length_range

theorem countP_drop_eq (lines : List Bytes) (n : Nat) :
    (List.range (lines.length - n)).countP (fun i => decide (lines.getD (n + i) [] ≠ [])) =
      (lines.drop n).countP (· ≠ []) := by
  have listed : lines.drop n =
      (List.range (lines.length - n)).map fun i => lines.getD (n + i) [] := by
    refine List.ext_getElem (by simp) fun i bound bound' => ?_
    rw [List.length_map, List.length_range] at bound'
    rw [List.getElem_drop, List.getElem_map, List.getElem_range, List.getD_eq_getElem?_getD,
      List.getElem?_eq_getElem (by omega), Option.getD_some]
  rw [listed, List.countP_map]
  rfl

/-- The places that differ are those of new lines that were not there and those that were cut
off. -/
theorem differingPlaces_eq (before after : List Bytes) :
    differingPlaces before after =
      after.length - keptPlaces before after + cutOff before after := by
  have length : max before.length after.length =
      after.length + (before.length - after.length) := by omega
  have within : (List.range after.length).countP
      (fun i => decide (before.getD i [] ≠ after.getD i [])) =
        after.length - keptPlaces before after := by
    have whole := @List.length_eq_countP_add_countP _
      (fun i => decide (before.getD i [] = after.getD i [])) (List.range after.length)
    rw [List.length_range] at whole
    simp only [decide_eq_true_eq] at whole
    show _ = after.length - (List.range after.length).countP _
    exact Nat.eq_sub_of_add_eq' whole.symm
  unfold differingPlaces
  rw [length, List.range_add, List.countP_append, within, List.countP_map, cutOff,
    ← countP_drop_eq]
  congr 1
  refine List.countP_congr fun i _ => ?_
  have missing : after.getD (after.length + i) [] = [] := by
    rw [List.getD_eq_getElem?_getD, List.getElem?_eq_none (Nat.le_add_right _ _), Option.getD_none]
  rw [Function.comp_apply, missing]

/-- The proposal reaches the count of the changed lines. -/
def Counted (p : EditProposal) : Prop :=
  Consistent p ∧ (textLines p.afterContent).length < 20 ∧
    2 < (textLines p.afterContent).length ∧ p.beforeContent ≠ []

/-- A fifth of the new lines keep their places, and one more for each one that was cut off. -/
def ManyKept (p : EditProposal) : Prop :=
  (textLines p.afterContent).length +
      5 * cutOff (textLines p.beforeContent) (textLines p.afterContent) ≤
    5 * keptPlaces (textLines p.beforeContent) (textLines p.afterContent)

/-- A complaint is about a text that is counted, and few of whose lines kept their places. -/
theorem not_manyKept_of_reports {p : EditProposal} (reports : ReportsLargeFraction p) :
    Counted p ∧ ¬ManyKept p := by
  obtain ⟨consistent, small, more, nonempty, many⟩ := (reportsLargeFraction_iff p).mp reports
  refine ⟨⟨consistent, small, more, nonempty⟩, ?_⟩
  have kept := keptPlaces_le (textLines p.beforeContent) (textLines p.afterContent)
  rw [differingPlaces_eq] at many
  unfold ManyKept
  omega

theorem reports_of_not_manyKept {p : EditProposal}
    (counted : Counted p) (few : ¬ManyKept p) (fits : (textLines p.beforeContent).length < 2 ^ 32) :
    ReportsLargeFraction p := by
  obtain ⟨consistent, small, more, nonempty⟩ := counted
  refine (reportsLargeFraction_iff p).mpr ⟨consistent, small, more, nonempty, ?_⟩
  have kept := keptPlaces_le (textLines p.beforeContent) (textLines p.afterContent)
  have cut : cutOff (textLines p.beforeContent) (textLines p.afterContent) ≤
      (textLines p.beforeContent).length - (textLines p.afterContent).length :=
    List.countP_le_length.trans_eq List.length_drop
  unfold ManyKept at few
  rw [differingPlaces_eq, Nat.mod_eq_of_lt (by omega)]
  omega

/-- **Too many changed lines are only reported where fewer than a fifth survive** when the lines
that survive keep their places and none is cut off, or when the count is not reached or finds
enough lines in their places.  Of an edit that only inserts lines, or only deletes lines, it is
said exactly when that is so. -/
theorem large_fraction_justified (p : EditProposal) :
    (¬Counted p ∨ ManyKept p ∨
        (cutOff (textLines p.beforeContent) (textLines p.afterContent) = 0 ∧
          KeepPlaces (textLines p.beforeContent) (textLines p.afterContent)) →
      ReportsLargeFraction p → FewSurvive p) ∧
    ((textLines p.beforeContent).Sublist (textLines p.afterContent) →
      ((ReportsLargeFraction p → FewSurvive p) ↔ ¬Counted p ∨ ManyKept p ∨
        5 * (textLines p.beforeContent).length < (textLines p.afterContent).length)) ∧
    ((textLines p.afterContent).Sublist (textLines p.beforeContent) →
      (textLines p.beforeContent).length < 2 ^ 32 →
      ((ReportsLargeFraction p → FewSurvive p) ↔ ¬Counted p ∨ ManyKept p)) := by
  refine ⟨?_, fun inserted => ?_, fun deleted fits => ?_⟩
  · rintro condition reports common subBefore subAfter
    obtain ⟨counted, few⟩ := not_manyKept_of_reports reports
    rcases condition with uncounted | many | ⟨whole, keep⟩
    · exact absurd counted uncounted
    · exact absurd many few
    · have length := keep common subBefore subAfter
      unfold ManyKept at few
      omega
  · have shorter := inserted.length_le
    constructor
    · intro justified
      by_contra none_
      obtain ⟨counted, few, long⟩ : Counted p ∧ ¬ManyKept p ∧
          ¬5 * (textLines p.beforeContent).length < (textLines p.afterContent).length := by
        tauto
      have small := counted.2.1
      exact long (justified (reports_of_not_manyKept counted few (by omega)) _
        (List.Sublist.refl _) inserted)
    · rintro condition reports common subBefore -
      obtain ⟨counted, few⟩ := not_manyKept_of_reports reports
      have length := subBefore.length_le
      rcases condition with uncounted | many | short
      · exact absurd counted uncounted
      · exact absurd many few
      · omega
  · constructor
    · intro justified
      by_contra none_
      obtain ⟨counted, few⟩ : Counted p ∧ ¬ManyKept p := by tauto
      have survivors := justified (reports_of_not_manyKept counted few (by omega)) _ deleted
        (List.Sublist.refl _)
      omega
    · rintro condition reports
      obtain ⟨counted, few⟩ := not_manyKept_of_reports reports
      rcases condition with uncounted | many
      · exact absurd counted uncounted
      · exact absurd many few

/-- A write that keeps the first line of six and replaces the others. -/
def replacedLines : EditProposal :=
  ⟨str "file.write", [], str "small.cpp", str "a\nb\nc\nd\ne\nf\n", str "a\nu\nv\nw\nx\ny\n", []⟩

/-- It is suspected, and one line of six survives. -/
theorem large_fraction_justified_replaced :
    ReportsLargeFraction replacedLines ∧ FewSurvive replacedLines := by
  have reports : ReportsLargeFraction replacedLines :=
    ⟨_, List.mem_singleton.mpr rfl, by decide +kernel⟩
  refine ⟨reports, (large_fraction_justified replacedLines).1 (.inr (.inr ⟨by decide, ?_⟩)) reports⟩
  have all : ∀ common ∈ (textLines replacedLines.beforeContent).sublists,
      common.Sublist (textLines replacedLines.afterContent) → common.length ≤ 1 := by
    decide +kernel
  exact fun common subBefore => all common (List.mem_sublists.mpr subBefore)

/-- A write that puts a line in front of four others is suspected. -/
theorem large_fraction_front :
    let p : EditProposal := ⟨str "file.write", [], str "small.cpp", str "a\nb\nc\nd\n",
      str "x\na\nb\nc\nd\n", []⟩
    checkDiff p =
        [str "large fraction of lines changed (5/5) -- may be unrelated reformatting"] ∧
      ¬FewSurvive p := by
  refine ⟨by decide +kernel, fun few => ?_⟩
  have survivors := few [str "a", str "b", str "c", str "d"] (by decide) (by decide)
  exact absurd survivors (by decide)

end Opencodepp.Verify
