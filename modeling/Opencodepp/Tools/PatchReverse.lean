import Opencodepp.Tools.UnifiedDiff

/-!
# Taking a patch back

`reverse` writes the hunks of a patch again with their sides exchanged.  The two sides of a hunk
are walked in parallel to tell common lines from removed and added ones; whatever the walk
decides, the sides of what it writes are those of the hunk (`oldSide_emitted`,
`newSide_emitted`).  But what it writes goes through the parser again, which passes by lines
that look like the name of a file, and a hunk that only removes lines becomes one that only adds
them, which is put one line too early.  `patched_reverse` says when the reverse of a patch
restores the text.
-/

set_option autoImplicit false

namespace Opencodepp.Tools.Patch

open Opencodepp.Core
open Opencodepp.Library

/-! ## What is written -/

/-- `emitAgainst`, as lines. -/
def emittedAgainst (old : Bytes) (continue_ : List Bytes → List DiffLine) :
    List Bytes → List DiffLine
  | [] => .removed old :: continue_ []
  | new :: rest =>
      if old = new then .context old :: continue_ rest
      else if rest.head? = some old then .removed old :: continue_ (new :: rest)
      else .added new :: emittedAgainst old continue_ rest

/-- `emitBody`, as lines. -/
def emitted : List Bytes → List Bytes → List DiffLine
  | [], new => new.map .added
  | old :: rest, new => emittedAgainst old (emitted rest) new

/-- A change with its sides exchanged. -/
def Change.flip (c : Change) : Change := ⟨c.gap, c.new, c.old⟩

/-- A change as the walk writes it back. -/
def Change.reversed (c : Change) : Section := ⟨c.gap, emitted c.new c.old⟩

theorem joinLines_marked_cons (line : DiffLine) (rest : List DiffLine) :
    joinLines ((line :: rest).map DiffLine.marked) =
      line.marked ++ newline :: joinLines (rest.map DiffLine.marked) := by
  rw [List.map_cons, joinLines_cons]

theorem emitAgainst_eq {old : Bytes} {continue_ : List Bytes → Bytes}
    {continueLines : List Bytes → List DiffLine}
    (same : ∀ new, continue_ new = joinLines ((continueLines new).map DiffLine.marked)) :
    ∀ new : List Bytes, emitAgainst old continue_ new =
      joinLines ((emittedAgainst old continueLines new).map DiffLine.marked) := by
  intro new
  induction new with
  | nil =>
      rw [emitAgainst, emittedAgainst, joinLines_marked_cons, same]
      simp [patchLine, DiffLine.marked]
  | cons line rest inductionHypothesis =>
      rw [emitAgainst, emittedAgainst]
      split
      · rw [joinLines_marked_cons, same]
        simp [patchLine, DiffLine.marked]
      · split
        · rw [joinLines_marked_cons, same]
          simp [patchLine, DiffLine.marked]
        · rw [joinLines_marked_cons, inductionHypothesis]
          simp [patchLine, DiffLine.marked]

theorem emitBody_eq : ∀ old new : List Bytes,
    emitBody old new = joinLines ((emitted old new).map DiffLine.marked) := by
  intro old
  induction old with
  | nil =>
      intro new
      rw [emitBody, emitted, joinLines, List.flatMap_map, List.flatMap_map]
      rfl
  | cons line rest inductionHypothesis =>
      intro new
      exact emitAgainst_eq inductionHypothesis new

theorem oldSide_emittedAgainst {old : Bytes} {rest : List Bytes}
    {continue_ : List Bytes → List DiffLine} (side : ∀ new, oldSide (continue_ new) = rest) :
    ∀ new : List Bytes, oldSide (emittedAgainst old continue_ new) = old :: rest := by
  intro new
  induction new with
  | nil => simpa [emittedAgainst, oldSide, DiffLine.old] using side []
  | cons line others inductionHypothesis =>
      rw [emittedAgainst]
      split
      · simpa [oldSide, DiffLine.old] using side others
      · split
        · simpa [oldSide, DiffLine.old] using side (line :: others)
        · simpa [oldSide, DiffLine.old] using inductionHypothesis

/-- The old side of what is written is the old side that was walked. -/
theorem oldSide_emitted : ∀ old new : List Bytes, oldSide (emitted old new) = old := by
  intro old
  induction old with
  | nil =>
      intro new
      simp [emitted, oldSide, List.flatMap_map, DiffLine.old]
  | cons line rest inductionHypothesis => exact oldSide_emittedAgainst inductionHypothesis

theorem newSide_emittedAgainst {old : Bytes} {continue_ : List Bytes → List DiffLine}
    (side : ∀ new, newSide (continue_ new) = new) :
    ∀ new : List Bytes, newSide (emittedAgainst old continue_ new) = new := by
  intro new
  induction new with
  | nil => simpa [emittedAgainst, newSide, DiffLine.new] using side []
  | cons line others inductionHypothesis =>
      rw [emittedAgainst]
      split
      · next same => simpa [newSide, DiffLine.new, same] using side others
      · split
        · simpa [newSide, DiffLine.new] using side (line :: others)
        · simpa [newSide, DiffLine.new] using inductionHypothesis

/-- The new side of what is written is the new side that was walked. -/
theorem newSide_emitted : ∀ old new : List Bytes, newSide (emitted old new) = new := by
  intro old
  induction old with
  | nil =>
      intro new
      simp [emitted, newSide, List.flatMap_map, DiffLine.new]
  | cons line rest inductionHypothesis => exact newSide_emittedAgainst inductionHypothesis

/-- Exchanging the sides on paper exchanges them. -/
theorem reversed_change (c : Change) : c.reversed.change = c.flip := by
  simp [Section.change, Change.reversed, Change.flip, oldSide_emitted, newSide_emitted]

/-- The reverse of a hunk as it is written. -/
def reversedText (h : Hunk) : HunkText :=
  ⟨h.newStart + 1, none, h.origStart + 1, none, [], emitted h.newBody h.oldBody⟩

theorem emitHunk_flip (h : Hunk) : emitHunk h.flip = joinLines (reversedText h).lines := by
  rw [emitHunk, emitBody_eq, HunkText.lines, joinLines_cons]
  simp [Hunk.flip, reversedText, headerLine, countText]

theorem reverse_eq (patchText : Bytes) :
    reverse patchText =
      .ok (joinLines (((parseHunks patchText).map reversedText).flatMap HunkText.lines)) := by
  unfold reverse parse
  simp only [emitHunk_flip, joinLines, List.flatMap_map, List.flatMap_assoc]

/-! ## Patches with accurate positions -/

/-- The hunks of changes, when so many lines of the two texts come before, with the positions of
both sides accurate. -/
def Accurate : Nat → Nat → List Change → List Hunk → Prop
  | _, _, [], hunks => hunks = []
  | _, _, _ :: _, [] => False
  | oldBefore, newBefore, c :: changes, h :: hunks =>
      h.origStart = headerPosition (oldBefore + c.gap.length) c.old.length - 1 ∧
        h.newStart = headerPosition (newBefore + c.gap.length) c.new.length - 1 ∧
        h.oldBody = c.old ∧ h.newBody = c.new ∧
        Accurate (oldBefore + c.gap.length + c.old.length)
          (newBefore + c.gap.length + c.new.length) changes hunks

/-- A patch between two texts: its hunks are in order, do not overlap and have accurate
positions.  The texts consist of lines without newlines and without carriage returns at their
ends, fewer than a machine word counts. -/
structure AccuratePatch where
  text : Bytes
  changes : List Change
  rest : List Bytes
  accurate : Accurate 0 0 changes (parseHunks text)
  plain_gap : ∀ c ∈ changes, ∀ line ∈ c.gap, isPlainLine line = true
  plain_old : ∀ c ∈ changes, ∀ line ∈ c.old, isPlainLine line = true
  plain_new : ∀ c ∈ changes, ∀ line ∈ c.new, isPlainLine line = true
  plain_rest : ∀ line ∈ rest, isPlainLine line = true
  old_fits : (sourceOf changes rest).length < 2 ^ 64
  new_fits : (targetOf changes rest).length < 2 ^ 64

namespace AccuratePatch

/-- The text the patch is for. -/
def source (p : AccuratePatch) : Bytes := joinLines (sourceOf p.changes p.rest)

/-- The text it makes. -/
def target (p : AccuratePatch) : Bytes := joinLines (targetOf p.changes p.rest)

/-- The reverse of the patch makes the first text of the second. -/
def Restores (p : AccuratePatch) : Prop :=
  ∃ back, reverse p.text = .ok back ∧ patched back p.target = .ok p.source

/-- In the parallel walk over the two sides of each hunk no added line that begins with two minus
signs and no removed line that begins with two plus signs is left unpaired, and a hunk that only
removes lines, unless from the start of the text, removes copies of the line before them. -/
def Reversible (p : AccuratePatch) : Prop :=
  (∀ c ∈ p.changes, ∀ l ∈ emitted c.new c.old, l.looksLikeFile = false) ∧
    RepeatsAfter [] (p.changes.map Change.flip)

/-- A hunk that only removes lines has common lines between it and the hunk before. -/
def Separated (p : AccuratePatch) : Prop := Apart true (p.changes.map Change.flip)

end AccuratePatch

theorem sourceOf_flip (changes : List Change) (rest : List Bytes) :
    sourceOf (changes.map Change.flip) rest = targetOf changes rest := by
  rw [sourceOf, targetOf, List.flatMap_map]
  rfl

theorem targetOf_flip (changes : List Change) (rest : List Bytes) :
    targetOf (changes.map Change.flip) rest = sourceOf changes rest := by
  rw [sourceOf, targetOf, List.flatMap_map]
  rfl

theorem map_reversed_change (changes : List Change) :
    (changes.map Change.reversed).map Section.change = changes.map Change.flip := by
  rw [List.map_map]
  exact List.map_congr_left fun c _ => reversed_change c

/-- The positions written back are read back. -/
theorem readAs_reversed : ∀ {changes : List Change} {hunks : List Hunk}
    {oldBefore newBefore : Nat}, Accurate oldBefore newBefore changes hunks →
      ReadAs newBefore (changes.map Change.reversed)
        ((hunks.map reversedText).map HunkText.hunk) := by
  intro changes
  induction changes with
  | nil =>
      intro hunks oldBefore newBefore accurate
      cases accurate
      rfl
  | cons c changes inductionHypothesis =>
      intro hunks oldBefore newBefore accurate
      cases hunks with
      | nil => exact accurate.elim
      | cons h hunks =>
          obtain ⟨-, start, old, new, accurateRest⟩ := accurate
          have later := inductionHypothesis accurateRest
          refine ⟨?_, ?_, ?_, ?_⟩
          · simp only [reversedText, HunkText.hunk_origStart, Change.reversed, oldSide_emitted,
              Nat.add_sub_cancel, start]
          · simp only [reversedText, HunkText.hunk_oldBody, Change.reversed, old, new]
          · simp only [reversedText, HunkText.hunk_newBody, Change.reversed, old, new]
          · simpa only [Change.reversed, oldSide_emitted] using later

theorem content_mem_sides {lines : List DiffLine} {l : DiffLine} (member : l ∈ lines) :
    l.content ∈ oldSide lines ∨ l.content ∈ newSide lines := by
  cases l with
  | context line => exact .inl (List.mem_flatMap.mpr ⟨_, member, List.mem_singleton_self _⟩)
  | removed line => exact .inl (List.mem_flatMap.mpr ⟨_, member, List.mem_singleton_self _⟩)
  | added line => exact .inr (List.mem_flatMap.mpr ⟨_, member, List.mem_singleton_self _⟩)

/-- What is written of plain sides is plain. -/
theorem plain_emitted {old new : List Bytes} (plainOld : ∀ line ∈ old, isPlainLine line = true)
    (plainNew : ∀ line ∈ new, isPlainLine line = true) :
    ∀ l ∈ emitted old new, isPlainLine l.content = true := by
  intro l member
  rcases content_mem_sides member with inOld | inNew
  · rw [oldSide_emitted] at inOld
    exact plainOld _ inOld
  · rw [newSide_emitted] at inNew
    exact plainNew _ inNew

theorem wellWritten_reversed {rest : List Bytes} : ∀ {changes : List Change}
    {hunks : List Hunk} {oldBefore newBefore : Nat},
    Accurate oldBefore newBefore changes hunks →
      (∀ c ∈ changes, ∀ line ∈ c.old, isPlainLine line = true) →
      (∀ c ∈ changes, ∀ line ∈ c.new, isPlainLine line = true) →
      oldBefore + (sourceOf changes rest).length < 2 ^ 64 →
      newBefore + (targetOf changes rest).length < 2 ^ 64 →
        ∀ t ∈ hunks.map reversedText, t.WellWritten := by
  intro changes
  induction changes with
  | nil =>
      intro hunks oldBefore newBefore accurate _ _ _ _ t member
      cases accurate
      cases member
  | cons c changes inductionHypothesis =>
      intro hunks oldBefore newBefore accurate plainOld plainNew oldFits newFits
      cases hunks with
      | nil => exact accurate.elim
      | cons h hunks =>
          obtain ⟨oldStart, newStart, old, new, accurateRest⟩ := accurate
          have oldSize : (sourceOf (c :: changes) rest).length =
              c.gap.length + c.old.length + (sourceOf changes rest).length := by
            simp [sourceOf, Nat.add_assoc]
          have newSize : (targetOf (c :: changes) rest).length =
              c.gap.length + c.new.length + (targetOf changes rest).length := by
            simp [targetOf, Nat.add_assoc]
          intro t member
          rcases List.mem_cons.mp member with rfl | later
          · have oldBound := headerPosition_le (oldBefore + c.gap.length) c.old.length
            have newBound := headerPosition_le (newBefore + c.gap.length) c.new.length
            refine ⟨by simp only [reversedText]; omega, by simp only [reversedText]; omega, rfl,
              fun l inBody => ?_⟩
            simp only [reversedText, old, new] at inBody
            exact plain_emitted (plainNew c (List.mem_cons_self ..))
              (plainOld c (List.mem_cons_self ..)) l inBody
          · exact inductionHypothesis accurateRest
              (fun d inRest => plainOld d (List.mem_cons_of_mem _ inRest))
              (fun d inRest => plainNew d (List.mem_cons_of_mem _ inRest)) (by omega) (by omega)
              t later

/-- The hunks of the reverse are read as the changes written back. -/
theorem AccuratePatch.parse_reverse (p : AccuratePatch) :
    ∃ back, reverse p.text = .ok back ∧
      parse back = .ok (((parseHunks p.text).map reversedText).map HunkText.hunk) := by
  refine ⟨_, reverse_eq p.text, ?_⟩
  have parsed := parseHunks_joinLines [] (by simp) (by simp)
    (wellWritten_reversed p.accurate p.plain_old p.plain_new (by simpa using p.old_fits)
      (by simpa using p.new_fits))
  exact congrArg Except.ok parsed

theorem AccuratePatch.plainSections (p : AccuratePatch) :
    PlainSections (p.changes.map Change.reversed) p.rest where
  gap := List.forall_mem_map.mpr p.plain_gap
  body := List.forall_mem_map.mpr fun c member =>
    plain_emitted (p.plain_new c member) (p.plain_old c member)
  rest := p.plain_rest

/-- The reverse restores the text exactly when its hunks make the lines. -/
theorem AccuratePatch.restores_iff (p : AccuratePatch) :
    p.Restores ↔
      applyHunks (((parseHunks p.text).map reversedText).map HunkText.hunk)
          (sourceOf ((p.changes.map Change.reversed).map Section.change) p.rest) =
        some (targetOf ((p.changes.map Change.reversed).map Section.change) p.rest) := by
  obtain ⟨back, written, parsed⟩ := p.parse_reverse
  have texts := apply_sections_iff (readAs_reversed p.accurate) p.plainSections
  rw [← texts, map_reversed_change, sourceOf_flip, targetOf_flip]
  constructor
  · rintro ⟨other, writtenOther, restored⟩
    obtain rfl : back = other := Except.ok.inj (written.symm.trans writtenOther)
    unfold patched at restored
    rw [parsed] at restored
    exact restored
  · intro applied
    refine ⟨back, written, ?_⟩
    unfold patched
    rw [parsed]
    exact applied

/-- **The reverse of an accurate patch restores the text when the walk leaves no line unpaired
that looks like the name of a file and every hunk that only removes lines removes copies of the
line before them; of hunks that are separated, only then.** -/
theorem patched_reverse (p : AccuratePatch) :
    (p.Reversible → p.Restores) ∧ (p.Separated → (p.Restores ↔ p.Reversible)) := by
  have read := readAs_reversed p.accurate
  have enough (reversible : p.Reversible) : p.Restores :=
    p.restores_iff.mpr (applyHunks_sections read (List.forall_mem_map.mpr reversible.1)
      (by rw [map_reversed_change]; exact reversible.2))
  refine ⟨enough, fun separated => ⟨fun restores => ?_, enough⟩⟩
  have apart : Apart true ((p.changes.map Change.reversed).map Section.change) := by
    rw [map_reversed_change]
    exact separated
  obtain ⟨whole, repeats⟩ := sections_of_applyHunks read apart (p.restores_iff.mp restores)
  rw [map_reversed_change] at repeats
  exact ⟨List.forall_mem_map.mp whole, repeats⟩

theorem AccuratePatch.not_restores {p : AccuratePatch} (back : Bytes)
    (written : reverse p.text = .ok back) (wrong : patched back p.target ≠ .ok p.source) :
    ¬ p.Restores := by
  rintro ⟨other, writtenOther, restored⟩
  obtain rfl : back = other := Except.ok.inj (written.symm.trans writtenOther)
  exact wrong restored

theorem accurate_addition : Accurate 0 0 [⟨[], [str "a"], [str "a", str "-- x"]⟩]
    (parseHunks (str "@@ -1,1 +1,2 @@\n a\n+-- x\n")) := by
  have parsed : parseHunks (str "@@ -1,1 +1,2 @@\n a\n+-- x\n") =
      [⟨0, 0, [str "a"], [], [str "-- x"], [str "a"], [str "a", str "-- x"]⟩] := by decide +kernel
  rw [parsed]
  exact ⟨rfl, rfl, rfl, rfl, rfl⟩

theorem accurate_removal : Accurate 0 0 [⟨[str "a"], [str "b"], []⟩]
    (parseHunks (str "@@ -2,1 +1,0 @@\n-b\n")) := by
  have parsed : parseHunks (str "@@ -2,1 +1,0 @@\n-b\n") =
      [⟨1, 0, [], [str "b"], [], [str "b"], []⟩] := by decide +kernel
  rw [parsed]
  exact ⟨rfl, rfl, rfl, rfl, rfl⟩

/-- An added line `-- x` is not taken back, and a removed last line comes back before the one it
followed. -/
theorem patched_reverse_fails :
    (∃ p : AccuratePatch, p.Separated ∧ p.text = str "@@ -1,1 +1,2 @@\n a\n+-- x\n" ∧
      p.source = str "a\n" ∧ p.target = str "a\n-- x\n" ∧
      patched p.text p.source = .ok p.target ∧
      reverse p.text = .ok (str "@@ -1 +1 @@\n a\n--- x\n") ∧
      patched (str "@@ -1 +1 @@\n a\n--- x\n") p.target = .ok (str "a\n-- x\n") ∧
      ¬ p.Restores) ∧
    (∃ p : AccuratePatch, p.Separated ∧ p.text = str "@@ -2,1 +1,0 @@\n-b\n" ∧
      p.source = str "a\nb\n" ∧ p.target = str "a\n" ∧
      patched p.text p.source = .ok p.target ∧
      reverse p.text = .ok (str "@@ -1 +2 @@\n+b\n") ∧
      patched (str "@@ -1 +2 @@\n+b\n") p.target = .ok (str "b\na\n") ∧
      ¬ p.Restores) := by
  constructor
  · refine ⟨⟨_, _, [], accurate_addition, by decide, by decide, by decide, by decide, by decide,
      by decide⟩, ⟨fun _ _ => rfl, trivial⟩, rfl, ?_, ?_, ?_, ?_, ?_,
      AccuratePatch.not_restores (str "@@ -1 +1 @@\n a\n--- x\n") ?_ ?_⟩
    all_goals decide +kernel
  · refine ⟨⟨_, _, [], accurate_removal, by decide, by decide, by decide, by decide, by decide,
      by decide⟩, ⟨fun _ _ => rfl, trivial⟩, rfl, ?_, ?_, ?_, ?_, ?_,
      AccuratePatch.not_restores (str "@@ -1 +2 @@\n+b\n") ?_ ?_⟩
    all_goals decide +kernel

end Opencodepp.Tools.Patch
