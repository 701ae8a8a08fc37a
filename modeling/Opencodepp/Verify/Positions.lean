import Opencodepp.Verify.Lexing

/-!
# Where the syntax stage says an issue is

An issue is reported at some place of the content: at a delimiter, a semicolon, a line break that
cuts a literal off, or the end.  The line and the column it carries are the true ones exactly when
no literal escapes a line break before that place, and both fit into 32 bits
(`checkSyntax_positions_iff`).
-/

set_option autoImplicit false

namespace Opencodepp.Verify

open Opencodepp.Library
open Opencodepp.Library.Positions

/-! ## Places in the content -/

/-- One plus the number of line breaks before a place. -/
def trueLine (content : Bytes) (offset : Nat) : Nat := lineAt (· == lineFeed) (content.take offset)

/-- One plus the number of bytes between the last line break and a place. -/
def trueCol (content : Bytes) (offset : Nat) : Nat := columnAt (· == lineFeed) (content.take offset)

/-- The place a fault is reported at, as the number of bytes before it. -/
def Fault.offset (f : Fault) : Nat := f.behind.length

/-- A literal escapes a line break before the place. -/
def EscapedBreakBefore (content : Bytes) (offset : Nat) : Prop :=
  (lineFeed, Shade.escaped) ∈ (marks content).take offset

/-- What a fault is reported for stands at its place. -/
def FaultKind.StandsAt (marked : List Mark) (offset : Nat) : FaultKind → Prop
  | .unexpected closing => marked[offset]? = some (closing, .code)
  | .unmatched opening _ _ => marked[offset]? = some (opening, .code)
  | .doubleSemicolon => marked[offset]? = some (ch ';', .code)
  | .unterminatedLiteral quote =>
      marked[offset]? = some (lineFeed, .broken quote) ∨ offset = marked.length
  | .unterminatedBlock => offset = marked.length
  | .unclosed opening => marked[offset]? = some (opening, .code)

/-- A fault has what stands before its place behind it, and is reported for what stands there. -/
structure Fault.Placed (f : Fault) (marked : List Mark) : Prop where
  behind : f.behind = marked.take f.offset
  stands : f.kind.StandsAt marked f.offset

/-- An open delimiter stands at its place. -/
def OpenAt (marked : List Mark) (opened : List Mark × UInt8) : Prop :=
  opened.1 = marked.take opened.1.length ∧ marked[opened.1.length]? = some (opened.2, .code)

/-- Only line breaks cut literals off. -/
theorem lineFeed_of_broken {mode : Mode} {content : Bytes} {mark : Mark} {quote : Quote}
    (member : mark ∈ (lex mode content).1) (broken : mark.2 = .broken quote) :
    mark.1 = lineFeed := by
  induction content generalizing mode with
  | nil => exact nomatch member
  | cons c rest inductionHypothesis =>
      rw [lex_cons] at member
      obtain rfl | member := List.mem_cons.mp member
      · unfold lexStep at broken
        cases mode with
        | code => dsimp only at broken; split_ifs at broken
        | opening => exact nomatch broken
        | line => exact nomatch broken
        | block => exact nomatch broken
        | closing => exact nomatch broken
        | escape => exact nomatch broken
        | literal =>
            dsimp only at broken
            split_ifs at broken with _ _ isBreak
            exact isBreak
      · exact inductionHypothesis member

section Marked

variable {behind rest : List Mark} {mark : Mark} {opened : List (List Mark × UInt8)}

theorem take_behind : behind = (behind ++ mark :: rest).take behind.length :=
  List.take_left.symm

theorem stands_behind : (behind ++ mark :: rest)[behind.length]? = some mark := by
  rw [List.getElem?_append_right (Nat.le_refl _), Nat.sub_self]
  rfl

/-- The faults that show at a byte, and what is open behind it. -/
theorem placed_faultsAt (lineFeeds : ∀ quote, mark.2 = .broken quote → mark.1 = lineFeed)
    (openAt : ∀ o ∈ opened, OpenAt (behind ++ mark :: rest) o) (next : Option UInt8) :
    (∀ f ∈ (faultsAt behind opened mark next).1, f.Placed (behind ++ mark :: rest)) ∧
      ∀ o ∈ (faultsAt behind opened mark next).2, OpenAt (behind ++ mark :: rest) o := by
  have here {kind : FaultKind} (stands : kind.StandsAt (behind ++ mark :: rest) behind.length) :
      ∀ f ∈ [(⟨behind, kind⟩ : Fault)], f.Placed (behind ++ mark :: rest) := by
    intro f member
    rw [List.mem_singleton.mp member]
    exact ⟨take_behind, stands⟩
  obtain ⟨c, shade⟩ := mark
  unfold faultsAt
  cases shade with
  | comment => exact ⟨nofun, openAt⟩
  | literal => exact ⟨nofun, openAt⟩
  | escaped => exact ⟨nofun, openAt⟩
  | broken quote =>
      have isBreak : c = lineFeed := lineFeeds quote rfl
      subst isBreak
      exact ⟨here (.inl stands_behind), openAt⟩
  | code =>
      dsimp only
      split_ifs with isOpen isClose semicolons
      · exact ⟨nofun, List.forall_mem_cons.mpr ⟨⟨take_behind, stands_behind⟩, openAt⟩⟩
      · cases opened with
        | nil => exact ⟨here stands_behind, nofun⟩
        | cons top below =>
            obtain ⟨topAt, belowAt⟩ := List.forall_mem_cons.mp openAt
            refine ⟨?_, belowAt⟩
            dsimp only
            split
            · exact nofun
            · intro f member
              rw [List.mem_singleton.mp member]
              exact ⟨topAt.1, topAt.2⟩
      · have isSemicolon : c = ch ';' := semicolons.1
        subst isSemicolon
        exact ⟨here stands_behind, openAt⟩
      · exact ⟨nofun, openAt⟩

theorem placed_faultsIn {marked : List Mark}
    (lineFeeds : ∀ mark ∈ marked, ∀ quote, mark.2 = .broken quote → mark.1 = lineFeed)
    (openAt : ∀ o ∈ opened, OpenAt (behind ++ marked) o) :
    (∀ f ∈ (faultsIn behind opened marked).1, f.Placed (behind ++ marked)) ∧
      ∀ o ∈ (faultsIn behind opened marked).2, OpenAt (behind ++ marked) o := by
  induction marked generalizing behind opened with
  | nil => exact ⟨nofun, openAt⟩
  | cons mark rest inductionHypothesis =>
      obtain ⟨lineFeedsHere, lineFeedsLater⟩ := List.forall_mem_cons.mp lineFeeds
      obtain ⟨placedHere, openHere⟩ :=
        placed_faultsAt lineFeedsHere openAt (rest.head?.map (·.1))
      have whole : behind ++ mark :: rest = behind ++ [mark] ++ rest := by simp
      rw [whole] at placedHere openHere ⊢
      obtain ⟨placedLater, openLater⟩ := inductionHypothesis lineFeedsLater openHere
      rw [faultsIn_cons]
      exact ⟨List.forall_mem_append.mpr ⟨placedHere, placedLater⟩, openLater⟩

end Marked

/-- **Every fault is reported for what stands at its place.** -/
theorem placed_of_mem_faults {content : Bytes} {f : Fault} (member : f ∈ faults content) :
    f.Placed (marks content) := by
  have both : (∀ f ∈ (faultsIn [] [] (marks content)).1, f.Placed ([] ++ marks content)) ∧
      ∀ o ∈ (faultsIn [] [] (marks content)).2, OpenAt ([] ++ marks content) o :=
    placed_faultsIn (fun _ member _ => lineFeed_of_broken member) nofun
  obtain ⟨placed, openAt⟩ := both
  unfold faults at member
  obtain member | member := List.mem_append.mp member
  · obtain member | member := List.mem_append.mp member
    · exact placed f member
    · have whole : marks content = (marks content).take (marks content).length :=
        List.take_length.symm
      cases mode : lastMode content with
      | code => rw [mode] at member; exact nomatch member
      | opening => rw [mode] at member; exact nomatch member
      | line => rw [mode] at member; exact nomatch member
      | closing => rw [mode] at member; exact nomatch member
      | block =>
          rw [mode] at member
          rw [List.mem_singleton.mp member]
          exact ⟨whole, rfl⟩
      | literal =>
          rw [mode] at member
          rw [List.mem_singleton.mp member]
          exact ⟨whole, .inr rfl⟩
      | escape =>
          rw [mode] at member
          rw [List.mem_singleton.mp member]
          exact ⟨whole, .inr rfl⟩
  · obtain ⟨o, left, rfl⟩ := List.mem_map.mp member
    obtain ⟨before, stands⟩ := openAt o (List.mem_reverse.mp left)
    exact ⟨before, stands⟩

/-! ## The positions -/

theorem counts_implies_break (mark : Mark) (counted : counts mark = true) :
    (mark.1 == lineFeed) = true := (Bool.and_eq_true_iff.mp counted).1

/-- Counting misses a line break exactly when a literal escapes one. -/
theorem lineAt_counts_iff (behind : List Mark) :
    lineAt counts behind = lineAt (fun mark => mark.1 == lineFeed) behind ↔
      (lineFeed, Shade.escaped) ∉ behind := by
  rw [lineAt_eq_iff counts_implies_break]
  constructor
  · intro counted member
    exact absurd (counted _ member (beq_self_eq_true _)) (by decide)
  · rintro absent ⟨c, shade⟩ member isBreak
    have same : c = lineFeed := eq_of_beq isBreak
    subst same
    refine counts_lineFeed ?_
    rintro rfl
    exact absent member

/-- A fault carries its true position exactly when no line break before it was missed and the
position fits. -/
theorem issue_position_iff {content : Bytes} {f : Fault} (placed : f.Placed (marks content)) :
    (f.issue.line, f.issue.col) = (trueLine content f.offset, trueCol content f.offset) ↔
      ¬EscapedBreakBefore content f.offset ∧ trueLine content f.offset < 2 ^ 32 ∧
        trueCol content f.offset < 2 ^ 32 := by
  have bytes : content.take f.offset = f.behind.map (·.1) := by
    rw [placed.behind, List.map_take]
    unfold marks
    rw [map_lex]
  have lineEq : trueLine content f.offset = lineAt (fun mark => mark.1 == lineFeed) f.behind := by
    unfold trueLine
    rw [bytes, lineAt_map]
  have colEq : trueCol content f.offset = columnAt (fun mark => mark.1 == lineFeed) f.behind := by
    unfold trueCol
    rw [bytes, columnAt_map]
  have issueLine : f.issue.line = lineAt counts f.behind % 2 ^ 32 := UInt32.toNat_ofNat'
  have issueCol : f.issue.col = columnAt counts f.behind % 2 ^ 32 := UInt32.toNat_ofNat'
  have fewer := lineAt_le counts_implies_break f.behind
  have sameCol (absent : (lineFeed, Shade.escaped) ∉ f.behind) :
      columnAt counts f.behind = columnAt (fun mark => mark.1 == lineFeed) f.behind :=
    columnAt_congr fun mark member => by
      cases counted : counts mark with
      | true => exact (counts_implies_break mark counted).symm
      | false =>
          cases isBreak : mark.1 == lineFeed with
          | false => rfl
          | true =>
              have all := (lineAt_eq_iff counts_implies_break f.behind).mp
                ((lineAt_counts_iff f.behind).mpr absent) mark member isBreak
              rw [counted] at all
              exact nomatch all
  unfold EscapedBreakBefore
  rw [← placed.behind, Prod.mk.injEq, issueLine, issueCol, lineEq, colEq, ← lineAt_counts_iff]
  constructor
  · rintro ⟨line, col⟩
    have same : lineAt counts f.behind = lineAt (fun mark => mark.1 == lineFeed) f.behind := by
      omega
    have columns := sameCol ((lineAt_counts_iff f.behind).mp same)
    refine ⟨same, ?_, ?_⟩ <;> omega
  · rintro ⟨same, line, col⟩
    have columns := sameCol ((lineAt_counts_iff f.behind).mp same)
    rw [same, columns]
    exact ⟨Nat.mod_eq_of_lt line, Nat.mod_eq_of_lt col⟩

/-- **The issues are reported for what stands at their places, and all carry the true positions
exactly when no literal escapes a line break before any of them and the positions fit into 32
bits.** -/
theorem checkSyntax_positions_iff (content file : Bytes) :
    (∀ f ∈ faults content, f.kind.StandsAt (marks content) f.offset) ∧
    ((checkSyntax content file).map (fun issue => (issue.line, issue.col)) =
        (faults content).map (fun f => (trueLine content f.offset, trueCol content f.offset)) ↔
      ∀ f ∈ faults content, ¬EscapedBreakBefore content f.offset ∧
        trueLine content f.offset < 2 ^ 32 ∧ trueCol content f.offset < 2 ^ 32) := by
  constructor
  · exact fun f member => (placed_of_mem_faults member).stands
  · rw [checkSyntax_eq, List.map_map, List.map_inj_left]
    exact forall₂_congr fun f member => issue_position_iff (placed_of_mem_faults member)

/-- A brace behind a literal with an escaped line break is reported one line too early. -/
theorem checkSyntax_escaped_break :
    checkSyntax (str "\"\\\n\"\x7d") [] = [⟨1, 5, unexpectedClosing (ch '\x7d')⟩] ∧
      (faults (str "\"\\\n\"\x7d")).map Fault.offset = [4] ∧
      trueLine (str "\"\\\n\"\x7d") 4 = 2 ∧ trueCol (str "\"\\\n\"\x7d") 4 = 2 := by
  decide

end Opencodepp.Verify
