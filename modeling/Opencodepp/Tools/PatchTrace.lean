import Opencodepp.Library.Splice
import Opencodepp.Tools.Patch

/-!
# Following a patch through a text

The application of hunks, seen as edits of a list of lines.  A hunk is put where its old lines
first stand, at or after the place its header gives; `findBlock_eq_some_iff` says what the
search finds.  To see which lines a hunk was matched against, lines carry marks: a line of the
text keeps its mark as long as it is there, a line a hunk has put in has none.  The marks change
nothing of what is done (`followHunks_lines`).
-/

set_option autoImplicit false

namespace Opencodepp.Tools.Patch

open Opencodepp.Library

/-! ## The search -/

/-- A block of lines stands at a place. -/
def StandsAt (block lines : List Bytes) (place : Nat) : Prop :=
  place + block.length ≤ lines.length ∧ (lines.drop place).take block.length = block

instance (block lines : List Bytes) (place : Nat) : Decidable (StandsAt block lines place) :=
  inferInstanceAs (Decidable (_ ∧ _))

theorem standsAt_zero_iff {block lines : List Bytes} :
    StandsAt block lines 0 ↔ block.isPrefixOf lines = true := by
  rw [List.isPrefixOf_iff_prefix, StandsAt, List.drop_zero, Nat.zero_add]
  constructor
  · rintro ⟨-, same⟩
    exact same ▸ List.take_prefix ..
  · intro starts
    exact ⟨starts.length_le, (List.prefix_iff_eq_take.mp starts).symm⟩

theorem standsAt_succ_iff {block lines : List Bytes} {line : Bytes} {place : Nat} :
    StandsAt block (line :: lines) (place + 1) ↔ StandsAt block lines place := by
  simp only [StandsAt, List.length_cons, List.drop_succ_cons]
  constructor
  · rintro ⟨bound, same⟩
    exact ⟨by omega, same⟩
  · rintro ⟨bound, same⟩
    exact ⟨by omega, same⟩

theorem standsAt_drop_iff {block lines : List Bytes} {start place : Nat}
    (inside : start ≤ lines.length) :
    StandsAt block (lines.drop start) place ↔ StandsAt block lines (start + place) := by
  simp only [StandsAt, List.length_drop, List.drop_drop]
  constructor
  · rintro ⟨bound, same⟩
    exact ⟨by omega, same⟩
  · rintro ⟨bound, same⟩
    exact ⟨by omega, same⟩

/-- The search finds the first place where the block stands. -/
theorem findBlock_eq_some_iff {block : List Bytes} : ∀ {lines : List Bytes} {place : Nat},
    findBlock block lines = some place ↔
      StandsAt block lines place ∧ ∀ earlier < place, ¬ StandsAt block lines earlier := by
  intro lines
  induction lines with
  | nil =>
      intro place
      rw [findBlock]
      cases block with
      | nil =>
          have here : StandsAt ([] : List Bytes) [] 0 := by simp [StandsAt]
          cases place with
          | zero => simp [here]
          | succ place => simp [StandsAt]
      | cons line rest => simp [StandsAt]
  | cons line rest inductionHypothesis =>
      intro place
      rw [findBlock]
      by_cases starts : block.isPrefixOf (line :: rest) = true
      · have here := standsAt_zero_iff.mpr starts
        rw [if_pos starts]
        cases place with
        | zero => simp [here]
        | succ place =>
            simp only [Option.some.injEq, Nat.right_eq_add, Nat.add_eq_zero_iff, reduceCtorEq,
              and_false, false_iff, not_and, not_forall]
            exact fun _ => ⟨0, Nat.succ_pos _, not_not_intro here⟩
      · have elsewhere : ¬ StandsAt block (line :: rest) 0 := fun here =>
          starts (standsAt_zero_iff.mp here)
        rw [if_neg starts]
        cases place with
        | zero => simp [elsewhere]
        | succ place =>
            rw [Option.map_eq_some_iff, standsAt_succ_iff]
            constructor
            · rintro ⟨inner, found, same⟩
              obtain rfl : inner = place := by omega
              obtain ⟨stands, first⟩ := inductionHypothesis.mp found
              refine ⟨stands, fun earlier before => ?_⟩
              cases earlier with
              | zero => exact elsewhere
              | succ earlier =>
                  rw [standsAt_succ_iff]
                  exact first earlier (by omega)
            · rintro ⟨stands, first⟩
              refine ⟨place, inductionHypothesis.mpr ⟨stands, fun earlier before => ?_⟩, rfl⟩
              have shifted := first (earlier + 1) (by omega)
              rwa [standsAt_succ_iff] at shifted

/-- The place where the search for a hunk starts in a text of so many lines. -/
def searchFrom (h : Hunk) (count : Nat) : Nat := if h.origStart < count then h.origStart else 0

theorem searchFrom_le (h : Hunk) (count : Nat) : searchFrom h count ≤ count := by
  unfold searchFrom
  split
  · next below => exact Nat.le_of_lt below
  · exact Nat.zero_le _

/-- The first place of a block at or after another. -/
def firstFrom (block lines : List Bytes) (start : Nat) : Option Nat :=
  (findBlock block (lines.drop start)).map (start + ·)

/-- Where a hunk is put. -/
def anchorOf (h : Hunk) (lines : List Bytes) : Option Nat :=
  firstFrom h.oldBody lines (searchFrom h lines.length)

theorem firstFrom_eq_some_iff {block lines : List Bytes} {start place : Nat}
    (inside : start ≤ lines.length) :
    firstFrom block lines start = some place ↔
      start ≤ place ∧ StandsAt block lines place ∧
        ∀ earlier, start ≤ earlier → earlier < place → ¬ StandsAt block lines earlier := by
  unfold firstFrom
  rw [Option.map_eq_some_iff]
  constructor
  · rintro ⟨offset, found, rfl⟩
    obtain ⟨stands, first⟩ := findBlock_eq_some_iff.mp found
    refine ⟨Nat.le_add_right .., (standsAt_drop_iff inside).mp stands, ?_⟩
    intro earlier low high
    obtain ⟨inner, rfl⟩ := Nat.exists_eq_add_of_le low
    rw [← standsAt_drop_iff inside]
    exact first inner (by omega)
  · rintro ⟨low, stands, first⟩
    obtain ⟨offset, rfl⟩ := Nat.exists_eq_add_of_le low
    refine ⟨offset, findBlock_eq_some_iff.mpr ⟨(standsAt_drop_iff inside).mpr stands, ?_⟩, rfl⟩
    intro earlier before
    rw [standsAt_drop_iff inside]
    exact first (start + earlier) (Nat.le_add_right ..) (by omega)

theorem anchorOf_standsAt {h : Hunk} {lines : List Bytes} {anchor : Nat}
    (found : anchorOf h lines = some anchor) : StandsAt h.oldBody lines anchor :=
  ((firstFrom_eq_some_iff (searchFrom_le h _)).mp found).2.1

/-! ## Hunks as edits -/

/-- What a hunk does at a place, the lines it puts in written in some form. -/
def Hunk.edit {α : Type} (write : Bytes → α) (h : Hunk) (anchor : Nat) : Edit α :=
  ⟨anchor, h.oldBody.length, h.newBody.map write⟩

/-- What hunks do at the places found for them. -/
def editsAt {α : Type} (write : Bytes → α) (hunks : List Hunk) (anchors : List Nat) :
    List (Edit α) :=
  List.zipWith (Hunk.edit write) hunks anchors

theorem applyHunk_eq (h : Hunk) (lines : List Bytes) :
    applyHunk h lines = (anchorOf h lines).map fun anchor => (h.edit id anchor).splice lines := by
  unfold applyHunk anchorOf firstFrom searchFrom
  dsimp only
  generalize (if h.origStart < lines.length then h.origStart else 0) = start
  cases findBlock h.oldBody (lines.drop start) with
  | none => rfl
  | some offset => simp [Hunk.edit, Edit.splice]

/-! ## Marked lines -/

/-- A line, with its mark if it is one of the text. -/
structure MarkedLine (μ : Type) where
  line : Bytes
  mark : Option μ
  deriving Repr, DecidableEq

/-- A line a hunk puts in. -/
def MarkedLine.inserted {μ : Type} (line : Bytes) : MarkedLine μ := ⟨line, none⟩

/-- Where a hunk was put, and the marks of the lines it was matched against. -/
structure Placement (μ : Type) where
  anchor : Nat
  marks : List (Option μ)
  deriving Repr, DecidableEq

variable {μ : Type}

/-- One hunk on marked lines. -/
def followHunk (h : Hunk) (lines : List (MarkedLine μ)) :
    Option (Placement μ × List (MarkedLine μ)) :=
  (anchorOf h (lines.map MarkedLine.line)).map fun anchor =>
    let edit := h.edit MarkedLine.inserted anchor
    (⟨anchor, (edit.block lines).map MarkedLine.mark⟩, edit.splice lines)

/-- All hunks on marked lines, the last one first. -/
def followHunks : List Hunk → List (MarkedLine μ) →
    Option (List (Placement μ) × List (MarkedLine μ))
  | [], lines => some ([], lines)
  | h :: rest, lines =>
      (followHunks rest lines).bind fun later =>
        (followHunk h later.2).map fun now => (now.1 :: later.1, now.2)

theorem splice_map_line (h : Hunk) (anchor : Nat) (lines : List (MarkedLine μ)) :
    ((h.edit MarkedLine.inserted anchor).splice lines).map MarkedLine.line =
      (h.edit id anchor).splice (lines.map MarkedLine.line) := by
  simp [Edit.splice, Hunk.edit, MarkedLine.inserted, List.map_take, List.map_drop,
    Function.comp_def]

theorem followHunk_line (h : Hunk) (lines : List (MarkedLine μ)) :
    (followHunk h lines).map (fun now => now.2.map MarkedLine.line) =
      applyHunk h (lines.map MarkedLine.line) := by
  rw [applyHunk_eq, followHunk, Option.map_map]
  congr 1
  funext anchor
  exact splice_map_line h anchor lines

/-- The marks do not change what is done to the lines. -/
theorem followHunks_lines (hunks : List Hunk) (lines : List (MarkedLine μ)) :
    (followHunks hunks lines).map (fun now => now.2.map MarkedLine.line) =
      applyHunks hunks (lines.map MarkedLine.line) := by
  induction hunks with
  | nil => rfl
  | cons h rest inductionHypothesis =>
      rw [followHunks, applyHunks, ← inductionHypothesis]
      cases followHunks rest lines with
      | none => rfl
      | some later =>
          simp only [Option.bind_some, Option.map_map, Option.map_some]
          exact followHunk_line h later.2

theorem followHunk_eq_some {h : Hunk} {lines after : List (MarkedLine μ)}
    {placement : Placement μ} (followed : followHunk h lines = some (placement, after)) :
    anchorOf h (lines.map MarkedLine.line) = some placement.anchor ∧
      placement.marks =
        ((h.edit MarkedLine.inserted placement.anchor).block lines).map MarkedLine.mark ∧
      after = (h.edit MarkedLine.inserted placement.anchor).splice lines := by
  unfold followHunk at followed
  rw [Option.map_eq_some_iff] at followed
  obtain ⟨anchor, found, same⟩ := followed
  cases same
  exact ⟨found, rfl, rfl⟩

theorem followHunks_cons_eq_some {h : Hunk} {rest : List Hunk}
    {lines after : List (MarkedLine μ)} {placements : List (Placement μ)}
    (followed : followHunks (h :: rest) lines = some (placements, after)) :
    ∃ placement later between, placements = placement :: later ∧
      followHunks rest lines = some (later, between) ∧
      followHunk h between = some (placement, after) := by
  rw [followHunks, Option.bind_eq_some_iff] at followed
  obtain ⟨⟨later, between⟩, followedRest, now⟩ := followed
  obtain ⟨⟨placement, spliced⟩, followedHunk, same⟩ := Option.map_eq_some_iff.mp now
  cases same
  exact ⟨placement, later, between, rfl, followedRest, followedHunk⟩

/-- The lines after a run are those of the text with the edits made from the end. -/
theorem followHunks_eq_fromEnd : ∀ {hunks : List Hunk} {lines after : List (MarkedLine μ)}
    {placements : List (Placement μ)}, followHunks hunks lines = some (placements, after) →
      after = Edit.fromEnd (editsAt MarkedLine.inserted hunks (placements.map Placement.anchor))
        lines := by
  intro hunks
  induction hunks with
  | nil =>
      intro lines after placements followed
      cases followed
      rfl
  | cons h rest inductionHypothesis =>
      intro lines after placements followed
      obtain ⟨placement, later, between, rfl, followedRest, followedHunk⟩ :=
        followHunks_cons_eq_some followed
      obtain ⟨-, -, spliced⟩ := followHunk_eq_some followedHunk
      rw [spliced, inductionHypothesis followedRest]
      rfl

/-! ## Counting lines -/

theorem count_splice (edit : Edit Bytes) (lines : List Bytes) (line : Bytes) :
    (edit.splice lines).count line + (edit.block lines).count line =
      lines.count line + edit.new.count line := by
  have parts : lines = lines.take edit.anchor ++ (edit.block lines ++
      lines.drop (edit.anchor + edit.size)) := by
    rw [Edit.block, ← List.drop_drop, List.take_append_drop, List.take_append_drop]
  have whole := congrArg (List.count line) parts
  simp only [List.count_append] at whole
  simp only [Edit.splice, List.count_append]
  omega

/-- Wherever the hunks are put, each takes its old lines away and adds its new ones. -/
theorem count_applyHunks (line : Bytes) : ∀ {hunks : List Hunk} {lines after : List Bytes},
    applyHunks hunks lines = some after →
      after.count line + (hunks.flatMap Hunk.oldBody).count line =
        lines.count line + (hunks.flatMap Hunk.newBody).count line := by
  intro hunks
  induction hunks with
  | nil =>
      intro lines after applied
      cases applied
      rfl
  | cons h rest inductionHypothesis =>
      intro lines after applied
      rw [applyHunks, Option.bind_eq_some_iff] at applied
      obtain ⟨between, appliedRest, appliedHunk⟩ := applied
      have before := inductionHypothesis appliedRest
      rw [applyHunk_eq, Option.map_eq_some_iff] at appliedHunk
      obtain ⟨anchor, found, rfl⟩ := appliedHunk
      have now := count_splice (h.edit id anchor) between line
      have replaced : (h.edit id anchor).block between = h.oldBody := (anchorOf_standsAt found).2
      rw [replaced] at now
      simp only [List.flatMap_cons, List.count_append]
      simp only [Hunk.edit, List.map_id] at now ⊢
      omega

end Opencodepp.Tools.Patch
