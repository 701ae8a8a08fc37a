import Opencodepp.Tools.Changes

/-!
# Unified differences

A unified difference of two texts as a comparison program writes it: lines before the first
hunk, then the hunks, each with a header that gives the accurate positions and counts of its two
sides and with its lines behind their marks.  The structure `UnifiedDiff` holds one together
with the lines the texts have in common between the hunks, so the two texts are read off it.

`patched_unifiedDiff` settles when parsing such a difference and applying it to the first
text yields the second.  Two things can go wrong: a removed line that begins with two minus
signs, or an added one that begins with two plus signs, is taken for the name of a file; and a
hunk that only adds lines is put one line too early.  Comparison programs leave at least one
common line between two hunks, for else they would have written one; this is what the exact
condition asks of hunks that only add lines.
-/

set_option autoImplicit false

namespace Opencodepp.Tools.Patch

open Opencodepp.Core
open Opencodepp.Library

/-! ## What a comparison program writes -/

/-- A hunk, and the common lines between it and the hunk before.  A count of one may be left out
of the header; the rest of the header's line is free. -/
structure DiffHunk where
  gap : List Bytes
  body : List DiffLine
  oldShort : Bool
  newShort : Bool
  heading : Bytes
  deriving Repr, DecidableEq

def DiffHunk.section_ (h : DiffHunk) : Section := ⟨h.gap, h.body⟩

/-- The count as it is written. -/
def writtenCount (short : Bool) (count : Nat) : Option Nat :=
  if short && count == 1 then none else some count

/-- The hunks as they are written, when so many lines of the two texts come before. -/
def hunkTexts : Nat → Nat → List DiffHunk → List HunkText
  | _, _, [] => []
  | oldBefore, newBefore, h :: rest =>
      ⟨headerPosition (oldBefore + h.gap.length) (oldSide h.body).length,
        writtenCount h.oldShort (oldSide h.body).length,
        headerPosition (newBefore + h.gap.length) (newSide h.body).length,
        writtenCount h.newShort (newSide h.body).length, h.heading, h.body⟩ ::
        hunkTexts (oldBefore + h.gap.length + (oldSide h.body).length)
          (newBefore + h.gap.length + (newSide h.body).length) rest

/-- The changes of a list of hunks. -/
def changesOf (hunks : List DiffHunk) : List Change :=
  (hunks.map DiffHunk.section_).map Section.change

/-- A difference between two texts.  Its lines hold no newlines and no carriage returns at their
ends, what comes before the first hunk is no header, and the texts have fewer lines than a
machine word counts. -/
structure UnifiedDiff where
  preamble : List Bytes
  hunks : List DiffHunk
  rest : List Bytes
  plain_preamble : ∀ line ∈ preamble, isPlainLine line = true
  no_header : ∀ line ∈ preamble, (str "@@").isPrefixOf line = false
  plain_gap : ∀ h ∈ hunks, ∀ line ∈ h.gap, isPlainLine line = true
  plain_body : ∀ h ∈ hunks, ∀ l ∈ h.body, isPlainLine l.content = true
  plain_heading : ∀ h ∈ hunks, isPlainLine h.heading = true
  plain_rest : ∀ line ∈ rest, isPlainLine line = true
  old_fits : (sourceOf (changesOf hunks) rest).length < 2 ^ 64
  new_fits : (targetOf (changesOf hunks) rest).length < 2 ^ 64

namespace UnifiedDiff

/-- The text of the difference. -/
def text (d : UnifiedDiff) : Bytes :=
  joinLines (d.preamble ++ (hunkTexts 0 0 d.hunks).flatMap HunkText.lines)

def sourceLines (d : UnifiedDiff) : List Bytes := sourceOf (changesOf d.hunks) d.rest

def targetLines (d : UnifiedDiff) : List Bytes := targetOf (changesOf d.hunks) d.rest

/-- The first of the two texts. -/
def source (d : UnifiedDiff) : Bytes := joinLines d.sourceLines

/-- The second of the two texts. -/
def target (d : UnifiedDiff) : Bytes := joinLines d.targetLines

/-- A hunk that only adds lines has common lines between it and the hunk before. -/
def Separated (d : UnifiedDiff) : Prop := Apart true (changesOf d.hunks)

/-- No removed line begins with two minus signs, no added line with two plus signs, and a hunk
without old lines, unless it stands at the start of the text, only repeats the line before it. -/
def Applicable (d : UnifiedDiff) : Prop :=
  (∀ h ∈ d.hunks, ∀ l ∈ h.body, l.looksLikeFile = false) ∧ RepeatsAfter [] (changesOf d.hunks)

end UnifiedDiff

/-! ## What is read of it -/

theorem headerPosition_le (before count : Nat) : headerPosition before count ≤ before + count := by
  unfold headerPosition
  split <;> omega

/-- Positions in headers are bounded by the sizes of the texts. -/
theorem wellWritten_hunkTexts (rest : List Bytes) : ∀ {hunks : List DiffHunk}
    {oldBefore newBefore : Nat},
    (∀ h ∈ hunks, ∀ l ∈ h.body, isPlainLine l.content = true) →
      (∀ h ∈ hunks, isPlainLine h.heading = true) →
      oldBefore + (sourceOf (changesOf hunks) rest).length < 2 ^ 64 →
      newBefore + (targetOf (changesOf hunks) rest).length < 2 ^ 64 →
        ∀ t ∈ hunkTexts oldBefore newBefore hunks, t.WellWritten := by
  intro hunks
  induction hunks with
  | nil =>
      intro oldBefore newBefore _ _ _ _ t member
      cases member
  | cons h hunks inductionHypothesis =>
      intro oldBefore newBefore plainBody plainHeading oldFits newFits t member
      have oldSize : (sourceOf (changesOf (h :: hunks)) rest).length =
          h.gap.length + (oldSide h.body).length + (sourceOf (changesOf hunks) rest).length := by
        simp [sourceOf, changesOf, Section.change, DiffHunk.section_, Nat.add_assoc]
      have newSize : (targetOf (changesOf (h :: hunks)) rest).length =
          h.gap.length + (newSide h.body).length + (targetOf (changesOf hunks) rest).length := by
        simp [targetOf, changesOf, Section.change, DiffHunk.section_, Nat.add_assoc]
      rcases List.mem_cons.mp member with rfl | later
      · have oldBound := headerPosition_le (oldBefore + h.gap.length) (oldSide h.body).length
        have newBound := headerPosition_le (newBefore + h.gap.length) (newSide h.body).length
        exact ⟨by simp only; omega, by simp only; omega, plainHeading h (List.mem_cons_self ..),
          plainBody h (List.mem_cons_self ..)⟩
      · exact inductionHypothesis (fun g inRest => plainBody g (List.mem_cons_of_mem _ inRest))
          (fun g inRest => plainHeading g (List.mem_cons_of_mem _ inRest)) (by omega) (by omega)
          t later

theorem readAs_hunkTexts : ∀ (hunks : List DiffHunk) (oldBefore newBefore : Nat),
    ReadAs oldBefore (hunks.map DiffHunk.section_)
      ((hunkTexts oldBefore newBefore hunks).map HunkText.hunk) := by
  intro hunks
  induction hunks with
  | nil => exact fun _ _ => rfl
  | cons h hunks inductionHypothesis =>
      intro oldBefore newBefore
      exact ⟨HunkText.hunk_origStart _, HunkText.hunk_oldBody _, HunkText.hunk_newBody _,
        inductionHypothesis _ _⟩

/-! ## The two texts -/

/-- Plain gaps, plain lines of one side and a plain rest make a plain text. -/
theorem plain_side {changes : List Change} {rest : List Bytes} (side : Change → List Bytes)
    (gaps : ∀ c ∈ changes, ∀ line ∈ c.gap, isPlainLine line = true)
    (sides : ∀ c ∈ changes, ∀ line ∈ side c, isPlainLine line = true)
    (tail : ∀ line ∈ rest, isPlainLine line = true) :
    ∀ line ∈ changes.flatMap (fun c => c.gap ++ side c) ++ rest, isPlainLine line = true := by
  intro line member
  rcases List.mem_append.mp member with inChanges | inRest
  · obtain ⟨c, isChange, inChange⟩ := List.mem_flatMap.mp inChanges
    rcases List.mem_append.mp inChange with inGap | inSide
    · exact gaps c isChange line inGap
    · exact sides c isChange line inSide
  · exact tail line inRest

/-- Plain lines are told apart by their texts. -/
theorem joinLines_injective {first second : List Bytes}
    (plainFirst : ∀ line ∈ first, isPlainLine line = true)
    (plainSecond : ∀ line ∈ second, isPlainLine line = true)
    (same : joinLines first = joinLines second) : first = second := by
  rw [← splitLines_joinLines plainFirst, same, splitLines_joinLines plainSecond]

theorem content_of_mem_oldSide {lines : List DiffLine} {line : Bytes}
    (member : line ∈ oldSide lines) : ∃ l ∈ lines, line = l.content := by
  obtain ⟨l, inLines, side⟩ := List.mem_flatMap.mp member
  refine ⟨l, inLines, ?_⟩
  cases l with
  | context inner => exact List.mem_singleton.mp side
  | removed inner => exact List.mem_singleton.mp side
  | added inner => cases side

theorem content_of_mem_newSide {lines : List DiffLine} {line : Bytes}
    (member : line ∈ newSide lines) : ∃ l ∈ lines, line = l.content := by
  obtain ⟨l, inLines, side⟩ := List.mem_flatMap.mp member
  refine ⟨l, inLines, ?_⟩
  cases l with
  | context inner => exact List.mem_singleton.mp side
  | removed inner => cases side
  | added inner => exact List.mem_singleton.mp side

/-- Sections all of whose lines are plain. -/
structure PlainSections (sections : List Section) (rest : List Bytes) : Prop where
  gap : ∀ s ∈ sections, ∀ line ∈ s.gap, isPlainLine line = true
  body : ∀ s ∈ sections, ∀ l ∈ s.body, isPlainLine l.content = true
  rest : ∀ line ∈ rest, isPlainLine line = true

namespace PlainSections

variable {sections : List Section} {rest : List Bytes}

theorem source (plain : PlainSections sections rest) :
    ∀ line ∈ sourceOf (sections.map Section.change) rest, isPlainLine line = true := by
  refine plain_side Change.old (List.forall_mem_map.mpr plain.gap)
    (List.forall_mem_map.mpr fun s member line side => ?_) plain.rest
  obtain ⟨l, inBody, rfl⟩ := content_of_mem_oldSide side
  exact plain.body s member l inBody

theorem target (plain : PlainSections sections rest) :
    ∀ line ∈ targetOf (sections.map Section.change) rest, isPlainLine line = true := by
  refine plain_side Change.new (List.forall_mem_map.mpr plain.gap)
    (List.forall_mem_map.mpr fun s member line side => ?_) plain.rest
  obtain ⟨l, inBody, rfl⟩ := content_of_mem_newSide side
  exact plain.body s member l inBody

end PlainSections

theorem plain_newBody_readAs : ∀ {sections : List Section} {hunks : List Hunk} {before : Nat},
    (∀ s ∈ sections, ∀ l ∈ s.body, isPlainLine l.content = true) →
      ReadAs before sections hunks →
        ∀ h ∈ hunks, ∀ line ∈ h.newBody, isPlainLine line = true := by
  intro sections
  induction sections with
  | nil =>
      intro hunks before _ read h member
      cases read
      cases member
  | cons s sections inductionHypothesis =>
      intro hunks before plain read
      cases hunks with
      | nil => exact read.elim
      | cons g hunks =>
          obtain ⟨-, -, new, readRest⟩ := read
          intro h member line side
          rcases List.mem_cons.mp member with rfl | later
          · rw [new] at side
            obtain ⟨l, isRead, rfl⟩ := content_of_mem_newSide side
            exact plain s (List.mem_cons_self ..) l (List.mem_filter.mp isRead).1
          · exact inductionHypothesis (fun t inRest => plain t (List.mem_cons_of_mem _ inRest))
              readRest h later line side

/-- A line of the result is one of the text or a new one. -/
theorem mem_applyHunks {hunks : List Hunk} {lines after : List Bytes}
    (applied : applyHunks hunks lines = some after) {line : Bytes} (member : line ∈ after) :
    line ∈ lines ∨ ∃ h ∈ hunks, line ∈ h.newBody := by
  have balance := count_applyHunks line applied
  have there := List.count_pos_iff.mpr member
  by_cases inText : line ∈ lines
  · exact .inl inText
  · have absent := List.count_eq_zero.mpr inText
    have isNew : line ∈ hunks.flatMap Hunk.newBody := List.count_pos_iff.mp (by omega)
    obtain ⟨h, inHunks, inBody⟩ := List.mem_flatMap.mp isNew
    exact .inr ⟨h, inHunks, inBody⟩

/-- Texts of sections are patched as their lines are. -/
theorem apply_sections_iff {sections : List Section} {hunks : List Hunk} {rest : List Bytes}
    (read : ReadAs 0 sections hunks) (plain : PlainSections sections rest) :
    apply hunks (joinLines (sourceOf (sections.map Section.change) rest)) =
        .ok (joinLines (targetOf (sections.map Section.change) rest)) ↔
      applyHunks hunks (sourceOf (sections.map Section.change) rest) =
        some (targetOf (sections.map Section.change) rest) := by
  rw [apply, splitLines_joinLines plain.source]
  cases applied : applyHunks hunks (sourceOf (sections.map Section.change) rest) with
  | none => simp
  | some after =>
      have plainAfter : ∀ line ∈ after, isPlainLine line = true := by
        intro line member
        rcases mem_applyHunks applied member with inText | ⟨h, inHunks, isNew⟩
        · exact plain.source line inText
        · exact plain_newBody_readAs plain.body read h inHunks line isNew
      simp only [Except.ok.injEq, Option.some.injEq]
      exact ⟨joinLines_injective plainAfter plain.target, congrArg joinLines⟩

theorem UnifiedDiff.plainSections (d : UnifiedDiff) :
    PlainSections (d.hunks.map DiffHunk.section_) d.rest where
  gap := List.forall_mem_map.mpr d.plain_gap
  body := List.forall_mem_map.mpr d.plain_body
  rest := d.plain_rest

theorem UnifiedDiff.parse_text (d : UnifiedDiff) :
    parse d.text = .ok ((hunkTexts 0 0 d.hunks).map HunkText.hunk) :=
  congrArg Except.ok (parseHunks_joinLines d.preamble d.plain_preamble d.no_header
    (wellWritten_hunkTexts d.rest d.plain_body d.plain_heading
      (by simpa using d.old_fits) (by simpa using d.new_fits)))

/-- **Parsing a unified difference and applying it to the first text yields the second when no
line is taken for the name of a file and every hunk that only adds lines repeats the line before
it; of hunks that are separated, only then.** -/
theorem patched_unifiedDiff (d : UnifiedDiff) :
    (d.Applicable → patched d.text d.source = .ok d.target) ∧
      (d.Separated → (patched d.text d.source = .ok d.target ↔ d.Applicable)) := by
  have read := readAs_hunkTexts d.hunks 0 0
  have lines : patched d.text d.source = .ok d.target ↔
      applyHunks ((hunkTexts 0 0 d.hunks).map HunkText.hunk) d.sourceLines =
        some d.targetLines := by
    unfold patched
    rw [d.parse_text]
    exact apply_sections_iff read d.plainSections
  have enough (applicable : d.Applicable) : patched d.text d.source = .ok d.target :=
    lines.mpr (applyHunks_sections read (List.forall_mem_map.mpr applicable.1) applicable.2)
  refine ⟨enough, fun separated => ⟨fun made => ?_, enough⟩⟩
  obtain ⟨whole, repeats⟩ := sections_of_applyHunks read separated (lines.mp made)
  exact ⟨List.forall_mem_map.mp whole, repeats⟩

/-- A removed line `-- x` stays in the text, and a line added after the only one goes before it. -/
theorem patched_unifiedDiff_fails :
    (∃ d : UnifiedDiff, d.Separated ∧ d.text = str "--- a\n+++ b\n@@ -1,2 +1,1 @@\n a\n--- x\n" ∧
      d.source = str "a\n-- x\n" ∧ d.target = str "a\n" ∧
      patched d.text d.source = .ok (str "a\n-- x\n") ∧
      patched d.text d.source ≠ .ok d.target) ∧
    (∃ d : UnifiedDiff, d.Separated ∧ d.text = str "--- a\n+++ b\n@@ -1,0 +2,1 @@\n+b\n" ∧
      d.source = str "a\n" ∧ d.target = str "a\nb\n" ∧
      patched d.text d.source = .ok (str "b\na\n") ∧
      patched d.text d.source ≠ .ok d.target) := by
  refine ⟨⟨⟨[str "--- a", str "+++ b"],
      [⟨[], [.context (str "a"), .removed (str "-- x")], false, false, []⟩], [], by decide,
      by decide, by decide, by decide, by decide, by decide, by decide, by decide⟩,
      ⟨fun _ _ => rfl, trivial⟩, by decide +kernel⟩,
    ⟨[str "--- a", str "+++ b"], [⟨[str "a"], [.added (str "b")], false, false, []⟩], [],
      by decide, by decide, by decide, by decide, by decide, by decide, by decide, by decide⟩,
      ⟨fun _ _ => rfl, trivial⟩, by decide +kernel⟩

end Opencodepp.Tools.Patch
