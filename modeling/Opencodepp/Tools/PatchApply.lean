import Opencodepp.Tools.PatchTrace

/-!
# Hunks in order

Hunks are applied to a text from the last to the first, each searched for from its header's
position to the end of what the later hunks have made of the text.  The intention is that the
result is that of all hunks at once: every hunk replaces a block of the text itself, the blocks
stand in the order of the hunks, and a hunk whose lines are not to be found makes the whole
patch be refused.

Nothing stops a search at the place of the next hunk, and a position past the end of the text
starts it at the beginning.  A hunk can so be matched against lines a later hunk has put in, or
behind it.  `applyInto_simultaneous_iff` says when an accepted patch is what it should be: when
the first places of the hunks' lines in the text itself are in order.
-/

set_option autoImplicit false

namespace Opencodepp.Tools.Patch

open Opencodepp.Core
open Opencodepp.Library

/-- `apply` with its out parameter. -/
def applyInto (hunks : List Hunk) (original out : Bytes) : Except Failure Unit × Bytes :=
  match applyHunks hunks (splitLines original) with
  | none => (.error (.of .eToolReject), out)
  | some lines => (.ok (), joinLines lines)

/-! ## All hunks at once -/

/-- The lines of a text, each with its number. -/
def numbered (lines : List Bytes) : List (MarkedLine Nat) :=
  lines.mapIdx fun i line => ⟨line, some i⟩

/-- The hunk's old lines stand in the text at or after its header's position. -/
def Matchable (h : Hunk) (lines : List Bytes) : Prop :=
  ∃ place, h.origStart ≤ place ∧ StandsAt h.oldBody lines place

theorem matchable_iff {h : Hunk} {lines : List Bytes} :
    Matchable h lines ↔
      ∃ place < lines.length + 1, h.origStart ≤ place ∧ StandsAt h.oldBody lines place := by
  constructor
  · rintro ⟨place, low, stands⟩
    have bound := stands.1
    exact ⟨place, by omega, low, stands⟩
  · rintro ⟨place, -, low, stands⟩
    exact ⟨place, low, stands⟩

instance (h : Hunk) (lines : List Bytes) : Decidable (Matchable h lines) :=
  decidable_of_iff _ matchable_iff.symm

/-- Every hunk was matched against a block of the text itself, the blocks are in the order of
the hunks and do not overlap, and the result has each of them replaced. -/
def Simultaneous (hunks : List Hunk) (lines after : List Bytes) : Prop :=
  ∃ placements, (followHunks hunks (numbered lines)).map Prod.fst = some placements ∧
    (∀ pair ∈ hunks.zip placements,
      StandsAt pair.1.oldBody lines pair.2.anchor ∧
        pair.2.marks = (List.range' pair.2.anchor pair.1.oldBody.length).map some) ∧
    Edit.InOrder lines.length 0 (editsAt id hunks (placements.map Placement.anchor)) ∧
    after = Edit.atOnce lines 0 (editsAt id hunks (placements.map Placement.anchor))

/-- What an accepted patch should have done. -/
def Contract (hunks : List Hunk) (original next : Bytes) : Prop :=
  (∀ h ∈ hunks, Matchable h (splitLines original)) ∧
    ∃ after, Simultaneous hunks (splitLines original) after ∧ next = joinLines after

/-- The number of lines once hunks have been applied to so many. -/
def lineCountAfter : List Hunk → Nat → Nat
  | [], count => count
  | h :: rest, count => lineCountAfter rest count - h.oldBody.length + h.newBody.length

/-- For every hunk the first place of its old lines in the text itself. -/
def placesOf : List Hunk → List Bytes → Option (List Nat)
  | [], _ => some []
  | h :: rest, lines =>
      (placesOf rest lines).bind fun later =>
        (firstFrom h.oldBody lines (searchFrom h (lineCountAfter rest lines.length))).map
          (· :: later)

/-- The first places of the hunks' lines in the text are in order, and none is before its
header's position for want of a later one. -/
def Orderly (hunks : List Hunk) (lines : List Bytes) : Prop :=
  (∀ h ∈ hunks, Matchable h lines) ∧
    ∃ places, placesOf hunks lines = some places ∧
      Edit.InOrder lines.length 0 (editsAt id hunks places)

/-! ## Texts that agree at the beginning -/

variable {before after block : List Bytes}

theorem standsAt_of_take_eq {cut place : Nat} (same : after.take cut = before.take cut)
    (insideAfter : cut ≤ after.length) (insideBefore : cut ≤ before.length)
    (fits : place + block.length ≤ cut) :
    StandsAt block after place ↔ StandsAt block before place := by
  have slice : ∀ lines : List Bytes, (lines.drop place).take block.length =
      ((lines.take cut).drop place).take block.length := by
    intro lines
    rw [List.drop_take, List.take_take, Nat.min_eq_left (by omega)]
  unfold StandsAt
  rw [slice after, slice before, same]
  constructor
  · exact fun stands => ⟨by omega, stands.2⟩
  · exact fun stands => ⟨by omega, stands.2⟩

theorem le_of_firstFrom {lines : List Bytes} {start place : Nat}
    (found : firstFrom block lines start = some place) : start ≤ place := by
  obtain ⟨offset, -, rfl⟩ := Option.map_eq_some_iff.mp found
  exact Nat.le_add_right ..

/-- A search that ends in the common beginning of two texts ends there in both. -/
theorem firstFrom_of_take_eq {cut start place : Nat} (same : after.take cut = before.take cut)
    (insideAfter : cut ≤ after.length) (insideBefore : cut ≤ before.length)
    (fits : place + block.length ≤ cut) :
    firstFrom block after start = some place ↔ firstFrom block before start = some place := by
  by_cases starts : start ≤ cut
  · rw [firstFrom_eq_some_iff (by omega), firstFrom_eq_some_iff (by omega),
      standsAt_of_take_eq same insideAfter insideBefore fits]
    refine and_congr_right fun _ => and_congr_right fun _ => forall_congr' fun earlier =>
      forall_congr' fun _ => forall_congr' fun lower => ?_
    rw [standsAt_of_take_eq same insideAfter insideBefore (by omega)]
  · constructor
    · intro found
      have low := le_of_firstFrom found
      omega
    · intro found
      have low := le_of_firstFrom found
      omega

/-! ## Runs in order -/

section Runs

variable {μ : Type}

theorem inOrder_mono {α : Type} {stop start start' : Nat} {edits : List (Edit α)}
    (order : Edit.InOrder stop start edits) (lower : start' ≤ start) :
    Edit.InOrder stop start' edits := by
  cases edits with
  | nil => exact Nat.le_trans lower order
  | cons e rest => exact ⟨Nat.le_trans lower order.1, order.2⟩

theorem inOrder_editsAt_cons {α : Type} {write : Bytes → α} {stop start anchor : Nat} {h : Hunk}
    {rest : List Hunk} {later : List Nat} :
    Edit.InOrder stop start (editsAt write (h :: rest) (anchor :: later)) ↔
      start ≤ anchor ∧
        Edit.InOrder stop (anchor + h.oldBody.length) (editsAt write rest later) :=
  Iff.rfl

/-- Whether edits are in order does not depend on what they put in. -/
theorem inOrder_editsAt_iff {α β : Type} (write : Bytes → α) (write' : Bytes → β) (stop : Nat) :
    ∀ (hunks : List Hunk) (anchors : List Nat) (start : Nat),
      Edit.InOrder stop start (editsAt write hunks anchors) ↔
        Edit.InOrder stop start (editsAt write' hunks anchors) := by
  intro hunks
  induction hunks with
  | nil => exact fun _ _ => Iff.rfl
  | cons h rest inductionHypothesis =>
      intro anchors start
      cases anchors with
      | nil => exact Iff.rfl
      | cons anchor later => exact and_congr_right fun _ => inductionHypothesis later _

theorem length_followHunks : ∀ {hunks : List Hunk} {lines reached : List (MarkedLine μ)}
    {placements : List (Placement μ)}, followHunks hunks lines = some (placements, reached) →
      reached.length = lineCountAfter hunks lines.length := by
  intro hunks
  induction hunks with
  | nil =>
      intro lines reached placements followed
      cases followed
      rfl
  | cons h rest inductionHypothesis =>
      intro lines reached placements followed
      obtain ⟨placement, later, between, rfl, followedRest, followedHunk⟩ :=
        followHunks_cons_eq_some followed
      obtain ⟨found, -, rfl⟩ := followHunk_eq_some followedHunk
      have inside := (anchorOf_standsAt found).1
      rw [List.length_map] at inside
      rw [lineCountAfter, ← inductionHypothesis followedRest, Edit.length_splice inside]
      simp [Hunk.edit]

/-- What is known of the lines when only hunks behind a place have been applied. -/
theorem agrees_of_followHunks {rest : List Hunk} {lines between : List (MarkedLine μ)}
    {later : List (Placement μ)} {cut : Nat} (followed : followHunks rest lines = some (later, between))
    (order : Edit.InOrder lines.length cut (editsAt id rest (later.map Placement.anchor))) :
    between.take cut = lines.take cut ∧ cut ≤ between.length ∧ cut ≤ lines.length := by
  have shape := followHunks_eq_fromEnd followed
  have marked : Edit.InOrder lines.length cut
      (editsAt (MarkedLine.inserted (μ := μ)) rest (later.map Placement.anchor)) :=
    (inOrder_editsAt_iff id _ lines.length rest _ cut).mp order
  rw [shape]
  exact ⟨Edit.take_fromEnd marked, Edit.le_length_fromEnd marked, marked.le⟩

/-- The place of the first hunk in the text itself and in what the later hunks have made of it. -/
theorem anchorOf_iff_firstFrom {h : Hunk} {rest : List Hunk}
    {lines between : List (MarkedLine μ)} {later : List (Placement μ)} {anchor : Nat}
    (followed : followHunks rest lines = some (later, between))
    (order : Edit.InOrder lines.length (anchor + h.oldBody.length)
      (editsAt id rest (later.map Placement.anchor))) :
    anchorOf h (between.map MarkedLine.line) = some anchor ↔
      firstFrom h.oldBody (lines.map MarkedLine.line)
        (searchFrom h (lineCountAfter rest lines.length)) = some anchor := by
  obtain ⟨same, insideBetween, insideLines⟩ := agrees_of_followHunks followed order
  have sameLines : (between.map MarkedLine.line).take (anchor + h.oldBody.length) =
      (lines.map MarkedLine.line).take (anchor + h.oldBody.length) := by
    rw [← List.map_take, ← List.map_take, same]
  unfold anchorOf
  rw [List.length_map, length_followHunks followed]
  exact firstFrom_of_take_eq sameLines (by simpa using insideBetween) (by simpa using insideLines)
    (Nat.le_refl _)

/-- In a run in order the hunks were put at the first places in the text itself. -/
theorem placesOf_of_followHunks : ∀ {hunks : List Hunk} {lines reached : List (MarkedLine μ)}
    {placements : List (Placement μ)}, followHunks hunks lines = some (placements, reached) →
      Edit.InOrder lines.length 0 (editsAt id hunks (placements.map Placement.anchor)) →
        placesOf hunks (lines.map MarkedLine.line) = some (placements.map Placement.anchor) := by
  intro hunks
  induction hunks with
  | nil =>
      intro lines reached placements followed _
      cases followed
      rfl
  | cons h rest inductionHypothesis =>
      intro lines reached placements followed order
      obtain ⟨placement, later, between, rfl, followedRest, followedHunk⟩ :=
        followHunks_cons_eq_some followed
      obtain ⟨found, -, -⟩ := followHunk_eq_some followedHunk
      obtain ⟨-, orderRest⟩ := inOrder_editsAt_cons.mp order
      have placed := inductionHypothesis followedRest (inOrder_mono orderRest (Nat.zero_le _))
      have first := (anchorOf_iff_firstFrom followedRest orderRest).mp found
      rw [placesOf, placed, List.length_map]
      simp [first]

/-- When the first places in the text itself are in order, the hunks are put there. -/
theorem followHunks_of_placesOf : ∀ {hunks : List Hunk} (lines : List (MarkedLine μ))
    {places : List Nat}, placesOf hunks (lines.map MarkedLine.line) = some places →
      Edit.InOrder lines.length 0 (editsAt id hunks places) →
        ∃ placements reached, followHunks hunks lines = some (placements, reached) ∧
          placements.map Placement.anchor = places := by
  intro hunks
  induction hunks with
  | nil =>
      intro lines places placed _
      cases placed
      exact ⟨[], lines, rfl, rfl⟩
  | cons h rest inductionHypothesis =>
      intro lines places placed order
      rw [placesOf, Option.bind_eq_some_iff] at placed
      obtain ⟨laterPlaces, placedRest, placedHunk⟩ := placed
      obtain ⟨place, first, rfl⟩ := Option.map_eq_some_iff.mp placedHunk
      obtain ⟨-, orderRest⟩ := inOrder_editsAt_cons.mp order
      obtain ⟨later, between, followedRest, rfl⟩ :=
        inductionHypothesis lines placedRest (inOrder_mono orderRest (Nat.zero_le _))
      rw [List.length_map] at first
      have found := (anchorOf_iff_firstFrom followedRest orderRest).mpr first
      rw [followHunks, followedRest]
      simp [followHunk, found]

/-- In a run in order every hunk was matched against lines of the text. -/
theorem blocks_of_followHunks : ∀ {hunks : List Hunk} {lines reached : List (MarkedLine μ)}
    {placements : List (Placement μ)}, followHunks hunks lines = some (placements, reached) →
      Edit.InOrder lines.length 0 (editsAt id hunks (placements.map Placement.anchor)) →
        ∀ pair ∈ hunks.zip placements,
          StandsAt pair.1.oldBody (lines.map MarkedLine.line) pair.2.anchor ∧
            pair.2.marks = ((lines.drop pair.2.anchor).take pair.1.oldBody.length).map
              MarkedLine.mark := by
  intro hunks
  induction hunks with
  | nil =>
      intro lines reached placements _ _ pair member
      cases member
  | cons h rest inductionHypothesis =>
      intro lines reached placements followed order pair member
      obtain ⟨placement, later, between, rfl, followedRest, followedHunk⟩ :=
        followHunks_cons_eq_some followed
      obtain ⟨-, orderRest⟩ := inOrder_editsAt_cons.mp order
      rw [List.zip_cons_cons, List.mem_cons] at member
      rcases member with rfl | inRest
      · obtain ⟨found, marks, -⟩ := followHunk_eq_some followedHunk
        obtain ⟨same, insideBetween, insideLines⟩ := agrees_of_followHunks followedRest orderRest
        have block (l : List (MarkedLine μ)) :
            (l.drop placement.anchor).take h.oldBody.length =
              (l.take (placement.anchor + h.oldBody.length)).drop placement.anchor := by
          rw [List.drop_take, Nat.add_sub_cancel_left]
        have sameLines :
            (between.map MarkedLine.line).take (placement.anchor + h.oldBody.length) =
              (lines.map MarkedLine.line).take (placement.anchor + h.oldBody.length) := by
          rw [← List.map_take, ← List.map_take, same]
        refine ⟨(standsAt_of_take_eq sameLines (by simpa using insideBetween)
          (by simpa using insideLines) (Nat.le_refl _)).mp (anchorOf_standsAt found), ?_⟩
        rw [marks, Edit.block]
        simp only [Hunk.edit]
        rw [block between, block lines, same]
      · exact inductionHypothesis followedRest (inOrder_mono orderRest (Nat.zero_le _)) pair
          inRest

end Runs

/-! ## What an accepted patch has done -/

@[simp] theorem numbered_line (lines : List Bytes) :
    (numbered lines).map MarkedLine.line = lines := by
  apply List.ext_getElem <;> simp [numbered]

@[simp] theorem length_numbered (lines : List Bytes) : (numbered lines).length = lines.length := by
  simp [numbered]

/-- The marks of a block of the text are its line numbers. -/
theorem marks_numbered (lines : List Bytes) (place size : Nat)
    (inside : place + size ≤ lines.length) :
    (((numbered lines).drop place).take size).map MarkedLine.mark =
      (List.range' place size).map some := by
  apply List.ext_getElem
  · simp only [List.length_map, List.length_take, List.length_drop, length_numbered,
      List.length_range']
    omega
  · intro i _ _
    simp [numbered]

theorem map_line_fromEnd {μ : Type} (lines : List (MarkedLine μ)) :
    ∀ (hunks : List Hunk) (anchors : List Nat),
      (Edit.fromEnd (editsAt MarkedLine.inserted hunks anchors) lines).map MarkedLine.line =
        Edit.fromEnd (editsAt id hunks anchors) (lines.map MarkedLine.line) := by
  intro hunks
  induction hunks with
  | nil => exact fun _ => rfl
  | cons h rest inductionHypothesis =>
      intro anchors
      cases anchors with
      | nil => rfl
      | cons anchor later =>
          have tail := inductionHypothesis later
          calc ((h.edit MarkedLine.inserted anchor).splice
                (Edit.fromEnd (editsAt MarkedLine.inserted rest later) lines)).map MarkedLine.line
              = (h.edit id anchor).splice
                  ((Edit.fromEnd (editsAt MarkedLine.inserted rest later) lines).map
                    MarkedLine.line) := splice_map_line ..
            _ = Edit.fromEnd (editsAt id (h :: rest) (anchor :: later))
                  (lines.map MarkedLine.line) := by rw [tail]; rfl

/-- A run in order is what all hunks at once do. -/
theorem simultaneous_of_inOrder {hunks : List Hunk} {lines : List Bytes}
    {placements : List (Placement Nat)} {reached : List (MarkedLine Nat)}
    (followed : followHunks hunks (numbered lines) = some (placements, reached))
    (order : Edit.InOrder lines.length 0 (editsAt id hunks (placements.map Placement.anchor))) :
    Simultaneous hunks lines (reached.map MarkedLine.line) := by
  have orderNumbered : Edit.InOrder (numbered lines).length 0
      (editsAt id hunks (placements.map Placement.anchor)) := by
    rwa [length_numbered]
  have blocks := blocks_of_followHunks followed orderNumbered
  rw [numbered_line] at blocks
  refine ⟨placements, by rw [followed]; rfl, fun pair member => ?_, order, ?_⟩
  · obtain ⟨stands, marks⟩ := blocks pair member
    exact ⟨stands, by rw [marks, marks_numbered _ _ _ stands.1]⟩
  · rw [followHunks_eq_fromEnd followed, map_line_fromEnd, numbered_line,
      Edit.fromEnd_eq_atOnce_zero order]

/-- An accepted patch has done what it should exactly when the first places of its hunks' lines
are in order. -/
theorem contract_iff_orderly {hunks : List Hunk} {original next : Bytes}
    (applied : apply hunks original = .ok next) :
    Contract hunks original next ↔ Orderly hunks (splitLines original) := by
  have lines := followHunks_lines hunks (numbered (splitLines original))
  rw [numbered_line] at lines
  refine and_congr_right fun _ => ⟨?_, ?_⟩
  · rintro ⟨after, ⟨placements, followed, -, order, -⟩, -⟩
    obtain ⟨⟨_, reached⟩, run, rfl⟩ := Option.map_eq_some_iff.mp followed
    have placed := placesOf_of_followHunks run (by rwa [length_numbered])
    rw [numbered_line] at placed
    exact ⟨_, placed, order⟩
  · rintro ⟨places, placed, order⟩
    obtain ⟨placements, reached, run, rfl⟩ :=
      followHunks_of_placesOf (numbered (splitLines original)) (by rwa [numbered_line])
        (by rwa [length_numbered])
    refine ⟨_, simultaneous_of_inOrder run order, ?_⟩
    rw [run] at lines
    rw [apply, ← lines] at applied
    exact (Except.ok.inj applied).symm

/-- Hunks in order are accepted. -/
theorem apply_of_orderly {hunks : List Hunk} {original : Bytes}
    (orderly : Orderly hunks (splitLines original)) :
    ∃ next, apply hunks original = .ok next := by
  obtain ⟨-, places, placed, order⟩ := orderly
  obtain ⟨placements, reached, run, -⟩ :=
    followHunks_of_placesOf (numbered (splitLines original)) (by rwa [numbered_line])
      (by rwa [length_numbered])
  have lines := followHunks_lines hunks (numbered (splitLines original))
  rw [numbered_line, run] at lines
  exact ⟨_, by rw [apply, ← lines]; rfl⟩

theorem applyInto_eq_ok_iff {hunks : List Hunk} {original out next : Bytes} :
    applyInto hunks original out = (.ok (), next) ↔ apply hunks original = .ok next := by
  unfold applyInto apply
  cases applyHunks hunks (splitLines original) <;> simp

/-- **A refused patch writes nothing; an accepted one has replaced blocks of the text itself, in
order and all at once, exactly when the first places of the hunks' lines in the text are in
order.** -/
theorem applyInto_simultaneous_iff (hunks : List Hunk) (original out : Bytes) :
    (∀ e next, applyInto hunks original out = (.error e, next) →
      e = .of .eToolReject ∧ next = out) ∧
    (∀ next, applyInto hunks original out = (.ok (), next) →
      (Contract hunks original next ↔ Orderly hunks (splitLines original))) ∧
    (Orderly hunks (splitLines original) →
      ∃ next, applyInto hunks original out = (.ok (), next)) := by
  refine ⟨fun e next refused => ?_, fun next accepted => ?_, fun orderly => ?_⟩
  · unfold applyInto at refused
    cases applied : applyHunks hunks (splitLines original) with
    | none =>
        simp only [applied, Prod.mk.injEq, Except.error.injEq] at refused
        exact ⟨refused.1.symm, refused.2.symm⟩
    | some lines => simp [applied] at refused
  · exact contract_iff_orderly (applyInto_eq_ok_iff.mp accepted)
  · obtain ⟨next, applied⟩ := apply_of_orderly orderly
    exact ⟨next, applyInto_eq_ok_iff.mpr applied⟩

/-- The headers of hunks rise and their blocks do not overlap. -/
def Ascending : List Hunk → Prop :=
  List.Pairwise fun h later => h.origStart + h.oldBody.length ≤ later.origStart

instance (hunks : List Hunk) : Decidable (Ascending hunks) :=
  inferInstanceAs (Decidable (List.Pairwise _ hunks))

/-- Two hunks of which the second puts in the line the first one is looking for. -/
def strayHunks : List Hunk :=
  parseHunks (str "@@ -1,1 +1,1 @@\n-x\n+y\n@@ -2,1 +2,1 @@\n-b\n+x\n")

/-- The first hunk has no match in the text and is applied to the line the second one puts in. -/
theorem applyInto_stray :
    Ascending strayHunks ∧
      applyInto strayHunks (str "a\nb\n") [] = (.ok (), str "a\ny\n") ∧
      (∃ h ∈ strayHunks, ¬ Matchable h (splitLines (str "a\nb\n"))) ∧
      ¬ Contract strayHunks (str "a\nb\n") (str "a\ny\n") := by
  have facts : Ascending strayHunks ∧
      applyInto strayHunks (str "a\nb\n") [] = (.ok (), str "a\ny\n") ∧
      ∃ h ∈ strayHunks, ¬ Matchable h (splitLines (str "a\nb\n")) := by
    decide +kernel
  obtain ⟨ascending, applied, h, member, unmatched⟩ := facts
  exact ⟨ascending, applied, ⟨h, member, unmatched⟩, fun contract =>
    unmatched (contract.1 h member)⟩

end Opencodepp.Tools.Patch
