import Opencodepp.Tools.HunkText
import Opencodepp.Tools.PatchTrace

/-!
# Hunks where their headers say

Two texts as a list of changes: between lines they have in common, old lines stand for new ones.
Hunks with accurate headers are such changes, with the position of each.  A header gives the
number of the first old line; for a hunk without old lines it gives the number of the line
before, and this is where the parser's subtraction goes wrong: it puts the new lines before that
line, not after it.

`applyHunks_changes` says where the hunks land, and `landed_eq_targetOf_iff` when this is where
they should.  Hunks read from a text may also have lost lines; `applyHunks_sections` and
`sections_of_applyHunks` take both together.  That lost lines are missed is seen by counting: the lines lost from the old side begin
with minus signs and those lost from the new side with plus signs, so they do not make up for
each other.
-/

set_option autoImplicit false

namespace Opencodepp.Tools.Patch

open Opencodepp.Library

/-- Lines the texts have in common, then old lines for which there are new ones. -/
structure Change where
  gap : List Bytes
  old : List Bytes
  new : List Bytes
  deriving Repr, DecidableEq

/-- The text before the changes. -/
def sourceOf (changes : List Change) (rest : List Bytes) : List Bytes :=
  changes.flatMap (fun c => c.gap ++ c.old) ++ rest

/-- The text after the changes. -/
def targetOf (changes : List Change) (rest : List Bytes) : List Bytes :=
  changes.flatMap (fun c => c.gap ++ c.new) ++ rest

/-- The position a header gives: that of the first line, or for no lines the one before. -/
def headerPosition (before count : Nat) : Nat := if count = 0 then before else before + 1

/-- The hunks of changes that start after so many lines, with accurate headers. -/
def Headed : Nat → List Change → List Hunk → Prop
  | _, [], hunks => hunks = []
  | _, _ :: _, [] => False
  | before, c :: changes, h :: hunks =>
      h.origStart = headerPosition (before + c.gap.length) c.old.length - 1 ∧
        h.oldBody = c.old ∧ h.newBody = c.new ∧
        Headed (before + c.gap.length + c.old.length) changes hunks

/-- A change without old lines is apart from the one before it. -/
def Apart : Bool → List Change → Prop
  | _, [] => True
  | first, c :: changes => (c.old = [] → c.gap = [] → first = true) ∧ Apart false changes

/-! ## Where hunks land -/

/-- What the application makes of a change: without old lines the new ones go before the last
line of the gap. -/
def Change.landing (c : Change) : List Bytes :=
  if c.old = [] then c.gap.dropLast ++ c.new ++ c.gap.getLast?.toList else c.gap ++ c.new

/-- The text the application makes. -/
def landed (changes : List Change) (rest : List Bytes) : List Bytes :=
  changes.flatMap Change.landing ++ rest

theorem findBlock_append (block rest : List Bytes) : findBlock block (block ++ rest) = some 0 := by
  refine findBlock_eq_some_iff.mpr ⟨⟨by simp, by simp⟩, fun earlier before => ?_⟩
  omega

/-- A hunk whose old lines stand where the search starts replaces them. -/
theorem applyHunk_here (h : Hunk) (front rest : List Bytes)
    (starts : searchFrom h (front ++ h.oldBody ++ rest).length = front.length) :
    applyHunk h (front ++ h.oldBody ++ rest) = some (front ++ h.newBody ++ rest) := by
  have found : anchorOf h (front ++ h.oldBody ++ rest) = some front.length := by
    rw [anchorOf, starts, firstFrom, List.append_assoc, List.drop_left, findBlock_append]
    rfl
  rw [applyHunk_eq, found, Option.map_some, Edit.splice, Hunk.edit]
  simp only [List.map_id]
  rw [List.append_assoc front h.oldBody rest, List.take_left, ← List.drop_drop, List.drop_left,
    List.drop_left]

/-- A hunk without old lines, its header giving the number of the line before: the new lines go
before that line. -/
theorem applyHunk_insertion {h : Hunk} {front : List Bytes} (rest : List Bytes)
    (start : h.origStart = front.length - 1) (old : h.oldBody = []) :
    applyHunk h (front ++ rest) =
      some (front.dropLast ++ h.newBody ++ front.getLast?.toList ++ rest) := by
  rcases List.eq_nil_or_concat front with rfl | ⟨before, last, rfl⟩
  · -- nothing before the new lines: they go to the start of the text
    have zero : searchFrom h ([] ++ h.oldBody ++ rest).length = 0 := by
      rw [searchFrom, start]
      simp
    have here := applyHunk_here h [] rest zero
    rw [old] at here
    simpa using here
  · have starts : searchFrom h (before ++ h.oldBody ++ ([last] ++ rest)).length =
        before.length := by
      rw [searchFrom, start, old]
      simp
    have here := applyHunk_here h before ([last] ++ rest) starts
    rw [old] at here
    simpa using here

/-- A hunk with old lines, its header giving the number of the first. -/
theorem applyHunk_replacement {h : Hunk} {front : List Bytes} (rest : List Bytes)
    (start : h.origStart = front.length) (old : h.oldBody ≠ []) :
    applyHunk h (front ++ h.oldBody ++ rest) = some (front ++ h.newBody ++ rest) := by
  have size : h.oldBody.length ≠ 0 := fun zero => old (List.length_eq_zero_iff.mp zero)
  have below : front.length < (front ++ h.oldBody ++ rest).length := by
    simp only [List.length_append]
    omega
  exact applyHunk_here h front rest (by rw [searchFrom, start, if_pos below])

theorem headerPosition_nil (before : Nat) : headerPosition before ([] : List Bytes).length = before :=
  rfl

theorem headerPosition_of_ne_nil {before : Nat} {block : List Bytes} (some_ : block ≠ []) :
    headerPosition before block.length - 1 = before := by
  have size : block.length ≠ 0 := fun zero => some_ (List.length_eq_zero_iff.mp zero)
  rw [headerPosition, if_neg size, Nat.add_sub_cancel]

/-- One hunk with an accurate header, the later hunks already applied. -/
theorem applyHunk_change {c : Change} {h : Hunk} {front rest : List Bytes}
    (start : h.origStart = headerPosition (front.length + c.gap.length) c.old.length - 1)
    (old : h.oldBody = c.old) (new : h.newBody = c.new)
    (apart : c.old = [] → c.gap = [] → front = []) :
    applyHunk h (front ++ c.gap ++ c.old ++ rest) = some (front ++ c.landing ++ rest) := by
  by_cases none : c.old = []
  · rw [none, headerPosition_nil, ← List.length_append] at start
    have inserted := applyHunk_insertion rest start (old.trans none)
    rw [none, List.append_nil, inserted, Change.landing, if_pos none, new]
    rcases List.eq_nil_or_concat c.gap with empty | ⟨gap, last, shape⟩
    · simp [apart none empty, empty]
    · simp [shape, ← List.append_assoc]
  · rw [headerPosition_of_ne_nil none, ← List.length_append] at start
    have replaced := applyHunk_replacement rest start (by rwa [old])
    rw [old, new] at replaced
    rw [replaced, Change.landing, if_neg none]
    simp

/-- Hunks with accurate headers land at their changes. -/
theorem applyHunks_changes (rest : List Bytes) : ∀ {changes : List Change} {hunks : List Hunk}
    (front : List Bytes) (first : Bool), (first = true → front = []) → Apart first changes →
      Headed front.length changes hunks →
        applyHunks hunks (front ++ sourceOf changes rest) = some (front ++ landed changes rest) := by
  intro changes
  induction changes with
  | nil =>
      intro hunks front first _ _ headed
      cases headed
      rfl
  | cons c changes inductionHypothesis =>
      intro hunks front first atStart apart headed
      cases hunks with
      | nil => exact headed.elim
      | cons h hunks =>
          obtain ⟨start, old, new, headedRest⟩ := headed
          have later := inductionHypothesis (front ++ c.gap ++ c.old) false (by simp) apart.2 (by simpa [Nat.add_assoc] using headedRest)
          have source : front ++ sourceOf (c :: changes) rest =
              front ++ c.gap ++ c.old ++ sourceOf changes rest := by
            simp [sourceOf]
          have target : front ++ landed (c :: changes) rest =
              front ++ c.landing ++ landed changes rest := by
            simp [landed]
          rw [applyHunks, source, target, later, Option.bind_some]
          exact applyHunk_change start old new fun none empty => atStart (apart.1 none empty)

/-! ## Where they should land -/

theorem concat_eq_cons_iff {α : Type} {x : α} {l : List α} :
    l ++ [x] = x :: l ↔ ∀ y ∈ l, y = x := by
  induction l with
  | nil => simp
  | cons a rest inductionHypothesis =>
      constructor
      · intro same
        obtain ⟨rfl, tail⟩ := List.cons.inj same
        intro y member
        rcases List.mem_cons.mp member with here | later
        · exact here
        · exact inductionHypothesis.mp tail y later
      · intro all
        obtain rfl := all a (List.mem_cons_self ..)
        rw [List.cons_append, inductionHypothesis.mpr fun y member =>
          all y (List.mem_cons_of_mem _ member)]

/-- Copies of a line go before it as well as after it. -/
theorem dropLast_append_copies {front new : List Bytes}
    (copies : ∀ last ∈ front.getLast?, ∀ line ∈ new, line = last) :
    front.dropLast ++ new ++ front.getLast?.toList = front ++ new := by
  rcases List.eq_nil_or_concat front with rfl | ⟨before, last, rfl⟩
  · simp
  · have same : new ++ [last] = last :: new :=
      concat_eq_cons_iff.mpr fun line member => copies last (by simp) line member
    simp [same]

/-- After given lines, new lines without old ones repeat the line they follow. -/
def RepeatsAfter : List Bytes → List Change → Prop
  | _, [] => True
  | front, c :: changes =>
      (c.old = [] → ∀ last ∈ (front ++ c.gap).getLast?, ∀ line ∈ c.new, line = last) ∧
        RepeatsAfter (front ++ c.gap ++ c.old) changes

/-- Hunks that repeat the line before when they only add lines make the text they should. -/
theorem applyHunks_of_repeatsAfter (rest : List Bytes) :
    ∀ {changes : List Change} {hunks : List Hunk} (front : List Bytes),
      RepeatsAfter front changes → Headed front.length changes hunks →
        applyHunks hunks (front ++ sourceOf changes rest) =
          some (front ++ targetOf changes rest) := by
  intro changes
  induction changes with
  | nil =>
      intro hunks front _ headed
      cases headed
      rfl
  | cons c changes inductionHypothesis =>
      intro hunks front repeats headed
      cases hunks with
      | nil => exact headed.elim
      | cons h hunks =>
          obtain ⟨start, old, new, headedRest⟩ := headed
          have later := inductionHypothesis _ repeats.2 (by simpa [Nat.add_assoc] using headedRest)
          have source : front ++ sourceOf (c :: changes) rest =
              front ++ c.gap ++ c.old ++ sourceOf changes rest := by
            simp [sourceOf]
          have target : front ++ targetOf (c :: changes) rest =
              front ++ c.gap ++ c.new ++ targetOf changes rest := by
            simp [targetOf]
          rw [applyHunks, source, target, later, Option.bind_some]
          by_cases none : c.old = []
          · rw [none, headerPosition_nil, ← List.length_append] at start
            rw [none, List.append_nil, applyHunk_insertion _ start (old.trans none), new,
              dropLast_append_copies (repeats.1 none)]
          · rw [headerPosition_of_ne_nil none, ← List.length_append] at start
            have replaced := applyHunk_replacement (targetOf changes rest) start
              (by rwa [old])
            rwa [old, new] at replaced

/-- New lines without old ones repeat the line they follow. -/
def Change.Repeats (c : Change) : Prop :=
  c.old = [] → ∀ last ∈ c.gap.getLast?, ∀ line ∈ c.new, line = last

theorem length_landing (c : Change) : c.landing.length = (c.gap ++ c.new).length := by
  unfold Change.landing
  split
  · rcases List.eq_nil_or_concat c.gap with empty | ⟨gap, last, shape⟩
    · simp [empty]
    · simp [shape]
  · rfl

theorem landing_eq_iff (c : Change) : c.landing = c.gap ++ c.new ↔ c.Repeats := by
  unfold Change.landing Change.Repeats
  by_cases none : c.old = []
  · rcases List.eq_nil_or_concat c.gap with empty | ⟨gap, last, shape⟩
    · simp [none, empty]
    · simp only [none, if_true, shape, List.concat_eq_append, List.dropLast_concat,
        List.getLast?_append, List.getLast?_singleton, Option.some_or, Option.toList_some,
        List.append_assoc, List.append_cancel_left_eq, List.singleton_append, forall_const,
        Option.mem_def, Option.some.injEq, forall_eq']
      exact concat_eq_cons_iff
  · simp [none]

/-- The application gives the text after the changes exactly when every change without old lines
repeats the line before it. -/
theorem landed_eq_targetOf_iff (rest : List Bytes) : ∀ changes : List Change,
    landed changes rest = targetOf changes rest ↔ ∀ c ∈ changes, c.Repeats := by
  intro changes
  induction changes with
  | nil => simp [landed, targetOf]
  | cons c changes inductionHypothesis =>
      have left : landed (c :: changes) rest = c.landing ++ landed changes rest := by
        simp [landed]
      have right : targetOf (c :: changes) rest = (c.gap ++ c.new) ++ targetOf changes rest := by
        simp [targetOf]
      rw [left, right, List.forall_mem_cons, ← landing_eq_iff, ← inductionHypothesis]
      constructor
      · exact fun same => List.append_inj same (length_landing c)
      · rintro ⟨here, later⟩
        rw [here, later]

/-- Changes that are apart follow a line of their own gap. -/
theorem repeatsAfter_iff : ∀ {changes : List Change} {front : List Bytes} (first : Bool),
    (first = true → front = []) → Apart first changes →
      (RepeatsAfter front changes ↔ ∀ c ∈ changes, c.Repeats) := by
  intro changes
  induction changes with
  | nil =>
      intro front first _ _
      simp [RepeatsAfter]
  | cons c changes inductionHypothesis =>
      intro front first atStart apart
      have here : (c.old = [] → ∀ last ∈ (front ++ c.gap).getLast?, ∀ line ∈ c.new,
          line = last) ↔ c.Repeats := by
        refine forall_congr' fun none => ?_
        rcases List.eq_nil_or_concat c.gap with empty | ⟨gap, last, shape⟩
        · simp [empty, atStart (apart.1 none empty)]
        · simp [shape, ← List.append_assoc]
      rw [RepeatsAfter, here, List.forall_mem_cons,
        inductionHypothesis false (by simp) apart.2]

/-- Between two texts the lines are those removed and those added. -/
theorem count_targetOf (line : Bytes) (rest : List Bytes) (changes : List Change) :
    (targetOf changes rest).count line + (changes.flatMap Change.old).count line =
      (sourceOf changes rest).count line + (changes.flatMap Change.new).count line := by
  induction changes with
  | nil => rfl
  | cons c changes inductionHypothesis =>
      simp only [sourceOf, targetOf, List.flatMap_cons, List.count_append] at *
      omega

/-! ## Hunks as they are read -/

/-- A change, with the lines it is written in. -/
structure Section where
  gap : List Bytes
  body : List DiffLine
  deriving Repr, DecidableEq

def Section.change (s : Section) : Change := ⟨s.gap, oldSide s.body, newSide s.body⟩

/-- The hunks read of sections that start after so many lines: the headers are accurate, lines
that look like the name of a file are missing. -/
def ReadAs : Nat → List Section → List Hunk → Prop
  | _, [], hunks => hunks = []
  | _, _ :: _, [] => False
  | before, s :: sections, h :: hunks =>
      h.origStart = headerPosition (before + s.gap.length) (oldSide s.body).length - 1 ∧
        h.oldBody = oldSide (readable s.body) ∧ h.newBody = newSide (readable s.body) ∧
        ReadAs (before + s.gap.length + (oldSide s.body).length) sections hunks

/-- The lines of a section that are not read. -/
def lost (lines : List DiffLine) : List DiffLine := lines.filter DiffLine.looksLikeFile

/-- Each side of the lines is what is read of it and what is lost. -/
theorem count_side (side : DiffLine → List Bytes) (line : Bytes) (lines : List DiffLine) :
    (lines.flatMap side).count line =
      ((readable lines).flatMap side).count line + ((lost lines).flatMap side).count line := by
  induction lines with
  | nil => rfl
  | cons l rest inductionHypothesis =>
      cases file : l.looksLikeFile <;>
        simp only [readable, lost, List.flatMap_cons, List.filter_cons, file, List.count_append,
          Bool.not_true, Bool.not_false, if_true, if_false, Bool.false_eq_true] at * <;>
        omega

/-- What the hunks have of the lines, side by side with the changes. -/
theorem count_readAs (line : Bytes) : ∀ {sections : List Section} {hunks : List Hunk}
    {before : Nat}, ReadAs before sections hunks →
      ((sections.map Section.change).flatMap Change.old).count line =
          (hunks.flatMap Hunk.oldBody).count line +
            (sections.flatMap fun s => oldSide (lost s.body)).count line ∧
        ((sections.map Section.change).flatMap Change.new).count line =
          (hunks.flatMap Hunk.newBody).count line +
            (sections.flatMap fun s => newSide (lost s.body)).count line := by
  intro sections
  induction sections with
  | nil =>
      intro hunks before read
      cases read
      exact ⟨rfl, rfl⟩
  | cons s sections inductionHypothesis =>
      intro hunks before read
      cases hunks with
      | nil => exact read.elim
      | cons h hunks =>
          obtain ⟨-, old, new, readRest⟩ := read
          obtain ⟨oldRest, newRest⟩ := inductionHypothesis readRest
          have oldHere := count_side DiffLine.old line s.body
          have newHere := count_side DiffLine.new line s.body
          simp only [List.map_cons, List.flatMap_cons, List.count_append, old, new,
            Section.change, oldSide, newSide] at *
          constructor <;> omega

theorem removed_of_mem_oldSide_lost {lines : List DiffLine} {line : Bytes}
    (member : line ∈ oldSide (lost lines)) : (str "--").isPrefixOf line = true := by
  obtain ⟨l, isLost, side⟩ := List.mem_flatMap.mp member
  have file := (List.mem_filter.mp isLost).2
  cases l with
  | context _ => cases file
  | removed inner => rw [List.mem_singleton.mp side]; exact file
  | added _ => cases side

theorem added_of_mem_newSide_lost {lines : List DiffLine} {line : Bytes}
    (member : line ∈ newSide (lost lines)) : (str "++").isPrefixOf line = true := by
  obtain ⟨l, isLost, side⟩ := List.mem_flatMap.mp member
  have file := (List.mem_filter.mp isLost).2
  cases l with
  | context _ => cases file
  | removed _ => cases side
  | added inner => rw [List.mem_singleton.mp side]; exact file

/-- A line does not begin in both ways. -/
theorem not_both_files {line : Bytes} (removed : (str "--").isPrefixOf line = true)
    (added : (str "++").isPrefixOf line = true) : False := by
  have minus : str "--" = [0x2d, 0x2d] := by decide
  have plus : str "++" = [0x2b, 0x2b] := by decide
  rw [minus] at removed
  rw [plus] at added
  cases line with
  | nil => cases removed
  | cons b rest =>
      have isMinus := (List.cons_prefix_cons.mp (List.isPrefixOf_iff_prefix.mp removed)).1
      have isPlus := (List.cons_prefix_cons.mp (List.isPrefixOf_iff_prefix.mp added)).1
      exact absurd (isMinus.trans isPlus.symm) (by decide)

/-- When the hunks make the text they should, no line was lost. -/
theorem nothing_lost {sections : List Section} {hunks : List Hunk} {rest : List Bytes}
    (read : ReadAs 0 sections hunks)
    (applied : applyHunks hunks (sourceOf (sections.map Section.change) rest) =
      some (targetOf (sections.map Section.change) rest)) :
    ∀ s ∈ sections, ∀ l ∈ s.body, l.looksLikeFile = false := by
  have balance : ∀ line, (sections.flatMap fun s => oldSide (lost s.body)).count line =
      (sections.flatMap fun s => newSide (lost s.body)).count line := by
    intro line
    have made := count_applyHunks line applied
    have wanted := count_targetOf line rest (sections.map Section.change)
    obtain ⟨old, new⟩ := count_readAs line read
    omega
  intro s member l inBody
  refine Bool.eq_false_iff.mpr fun file => ?_
  have isLost : l ∈ lost s.body := List.mem_filter.mpr ⟨inBody, file⟩
  cases l with
  | context line => cases file
  | removed line =>
      have there : line ∈ sections.flatMap fun s => oldSide (lost s.body) :=
        List.mem_flatMap.mpr ⟨s, member, List.mem_flatMap.mpr ⟨_, isLost, List.mem_singleton_self _⟩⟩
      rw [← List.count_pos_iff, balance, List.count_pos_iff] at there
      obtain ⟨other, -, side⟩ := List.mem_flatMap.mp there
      exact not_both_files file (added_of_mem_newSide_lost side)
  | added line =>
      have there : line ∈ sections.flatMap fun s => newSide (lost s.body) :=
        List.mem_flatMap.mpr ⟨s, member, List.mem_flatMap.mpr ⟨_, isLost, List.mem_singleton_self _⟩⟩
      rw [← List.count_pos_iff, ← balance, List.count_pos_iff] at there
      obtain ⟨other, -, side⟩ := List.mem_flatMap.mp there
      exact not_both_files (removed_of_mem_oldSide_lost side) file

theorem headed_of_readAs : ∀ {sections : List Section} {hunks : List Hunk} {before : Nat},
    (∀ s ∈ sections, ∀ l ∈ s.body, l.looksLikeFile = false) → ReadAs before sections hunks →
      Headed before (sections.map Section.change) hunks := by
  intro sections
  induction sections with
  | nil => exact fun _ read => read
  | cons s sections inductionHypothesis =>
      intro hunks before whole read
      cases hunks with
      | nil => exact read
      | cons h hunks =>
          obtain ⟨start, old, new, readRest⟩ := read
          have all : readable s.body = s.body := by
            refine List.filter_eq_self.mpr fun l member => ?_
            simp [whole s (List.mem_cons_self ..) l member]
          rw [all] at old new
          exact ⟨start, old, new,
            inductionHypothesis (fun t member => whole t (List.mem_cons_of_mem _ member)) readRest⟩

/-- Hunks read of sections make the new text when no line looks like the name of a file and
every section without old lines repeats the line before it. -/
theorem applyHunks_sections {sections : List Section} {hunks : List Hunk} {rest : List Bytes}
    (read : ReadAs 0 sections hunks)
    (whole : ∀ s ∈ sections, ∀ l ∈ s.body, l.looksLikeFile = false)
    (repeats : RepeatsAfter [] (sections.map Section.change)) :
    applyHunks hunks (sourceOf (sections.map Section.change) rest) =
      some (targetOf (sections.map Section.change) rest) := by
  simpa using applyHunks_of_repeatsAfter rest [] repeats (headed_of_readAs whole read)

/-- When sections without old lines are apart from the ones before, this is the only way. -/
theorem sections_of_applyHunks {sections : List Section} {hunks : List Hunk}
    {rest : List Bytes} (read : ReadAs 0 sections hunks)
    (apart : Apart true (sections.map Section.change))
    (applied : applyHunks hunks (sourceOf (sections.map Section.change) rest) =
      some (targetOf (sections.map Section.change) rest)) :
    (∀ s ∈ sections, ∀ l ∈ s.body, l.looksLikeFile = false) ∧
      RepeatsAfter [] (sections.map Section.change) := by
  have whole := nothing_lost read applied
  have lands : applyHunks hunks (sourceOf (sections.map Section.change) rest) =
      some (landed (sections.map Section.change) rest) := by
    simpa using applyHunks_changes rest [] true (fun _ => rfl) apart
      (headed_of_readAs whole read)
  rw [lands, Option.some.injEq, landed_eq_targetOf_iff] at applied
  exact ⟨whole, (repeatsAfter_iff true (fun _ => rfl) apart).mpr applied⟩

end Opencodepp.Tools.Patch
