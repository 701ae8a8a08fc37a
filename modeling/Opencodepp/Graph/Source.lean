import Mathlib.Data.List.Forall2
import Mathlib.Data.List.Induction
import Opencodepp.Library.ByteString

/-!
# Scanning source text

The extractors of the symbol index are line scanners.  They work on a copy of the file in
which comments and literals are blanked byte for byte, so that an offset in the copy is an
offset in the file.  This module has the mask, the lines with their offsets, and the few
ways in which the scanners walk over bytes.
-/

set_option autoImplicit false

namespace Opencodepp.Graph

open Opencodepp.Library

def newline : UInt8 := 0x0a

def blank : UInt8 := 0x20

def isIdentChar (b : UInt8) : Bool :=
  (ch 'a' ≤ b && b ≤ ch 'z') || (ch 'A' ≤ b && b ≤ ch 'Z') || isDigit b || b = ch '_'

/-- Blanks within a line; the line feed is not one. -/
def isBlank (b : UInt8) : Bool := b = blank || b = 0x09

def ltrim (s : Bytes) : Bytes := s.dropWhile isBlank

/-- The byte at an offset. -/
def byteAt (code : Bytes) (i : Nat) : UInt8 := code.getD i 0

/-- The bytes from one offset up to another. -/
def slice (code : Bytes) (first last : Nat) : Bytes := (code.drop first).take (last - first)

/-! ## The mask -/

/-- What the byte under the mask belongs to. -/
inductive Mask
  | code
  | lineComment
  | blockComment
  | literal (quote : UInt8)
  deriving Repr, DecidableEq

/-- Blank comments and literals, from a state of the scan.  In a literal the backslash itself
stays, and the byte behind it is blanked whatever it is. -/
def maskFrom : Mask → Bytes → Bytes
  | _, [] => []
  | .lineComment, c :: rest =>
      if c = newline then c :: maskFrom .code rest else blank :: maskFrom .lineComment rest
  | .blockComment, [c] => [if c = newline then c else blank]
  | .blockComment, c :: d :: rest =>
      if c = ch '*' ∧ d = ch '/' then blank :: blank :: maskFrom .code rest
      else (if c = newline then c else blank) :: maskFrom .blockComment (d :: rest)
  | .literal _, [c] => [if c = ch '\\' ∨ c = newline then c else blank]
  | .literal quote, c :: d :: rest =>
      if c = ch '\\' then c :: blank :: maskFrom (.literal quote) rest
      else if c = quote then blank :: maskFrom .code (d :: rest)
      else (if c = newline then c else blank) :: maskFrom (.literal quote) (d :: rest)
  | .code, [c] => [if c = ch '"' ∨ c = ch '\'' then blank else c]
  | .code, c :: d :: rest =>
      if c = ch '/' ∧ d = ch '/' then blank :: blank :: maskFrom .lineComment rest
      else if c = ch '/' ∧ d = ch '*' then blank :: blank :: maskFrom .blockComment rest
      else if c = ch '"' ∨ c = ch '\'' then blank :: maskFrom (.literal c) (d :: rest)
      else c :: maskFrom .code (d :: rest)

def maskCommentsAndStrings (src : Bytes) : Bytes := maskFrom .code src

/-! ## Lines -/

/-- A line, with the offsets of its first byte and of the line feed behind it. -/
structure Line where
  off : Nat
  fin : Nat
  sv : Bytes
  deriving Repr, DecidableEq

/-- Lines one after the other from an offset. -/
def placeLines (off : Nat) : List Bytes → List Line
  | [] => []
  | sv :: rest => ⟨off, off + sv.length, sv⟩ :: placeLines (off + sv.length + 1) rest

/-- The lines of a text.  A final line feed is followed by an empty line. -/
def linesOf (s : Bytes) : List Line := placeLines 0 (s.splitOn newline)

/-- The number of the line an offset is in. -/
def lineOf (src : Bytes) (off : Nat) : UInt32 := ((src.take off).count newline + 1).toUInt32

/-! ## Walking over bytes -/

/-- The start of the identifier that ends at an offset, not before `low`. -/
def identStart (code : Bytes) (low : Nat) : Nat → Nat
  | 0 => 0
  | q + 1 => if low < q + 1 ∧ isIdentChar (byteAt code q) then identStart code low q else q + 1

/-- The distance to the byte that closes what the first opening byte opened. -/
def balance (opening closing : UInt8) : Int → Bytes → Option Nat
  | _, [] => none
  | depth, b :: rest =>
      if b = opening then (balance opening closing (depth + 1) rest).map (· + 1)
      else if b = closing then
        if depth - 1 = 0 then some 0 else (balance opening closing (depth - 1) rest).map (· + 1)
      else (balance opening closing depth rest).map (· + 1)

/-- The offset just past the brace that closes the one at `start`. -/
def matchBrace (code : Bytes) (start : Nat) : Option Nat :=
  (balance (ch '{') (ch '}') 0 (code.drop start)).map (start + · + 1)

/-- The identifier a text starts with. -/
def identOf (s : Bytes) : Bytes := s.takeWhile isIdentChar

/-!
## Offsets in masked text

The mask keeps the length of a text and changes bytes to blanks only, so a part of the masked text
without blanks is the same part of the source (`eq_of_masks`).  A line is the part of the text
between its offsets (`in_of_mem_linesOf`), and what a scanner has left of a line lies as far from
its end as it is long (`Line.In.drop_of_suffix`).
-/

/-! ## The mask -/

/-- A byte under the mask: itself or a blank. -/
def Masks (b masked : UInt8) : Prop := masked = b ∨ masked = blank

theorem Masks.refl (b : UInt8) : Masks b b := .inl rfl

theorem masks_blank (b : UInt8) : Masks b blank := .inr rfl

theorem masks_ite (p : Prop) [Decidable p] (b : UInt8) : Masks b (if p then b else blank) := by
  split
  · exact .refl b
  · exact masks_blank b

theorem masks_ite' (p : Prop) [Decidable p] (b : UInt8) : Masks b (if p then blank else b) := by
  split
  · exact masks_blank b
  · exact .refl b

theorem masks_maskFrom (m : Mask) (s : Bytes) : List.Forall₂ Masks s (maskFrom m s) := by
  fun_induction maskFrom m s with
  | case1 => exact .nil
  | case2 rest inductionHypothesis => exact .cons (.refl _) inductionHypothesis
  | case3 c rest other inductionHypothesis => exact .cons (masks_blank c) inductionHypothesis
  | case4 c => exact .cons (masks_ite _ c) .nil
  | case5 c d rest closes inductionHypothesis =>
      exact .cons (masks_blank c) (.cons (masks_blank d) inductionHypothesis)
  | case6 c d rest inside inductionHypothesis => exact .cons (masks_ite _ c) inductionHypothesis
  | case7 quote c => exact .cons (masks_ite _ c) .nil
  | case8 quote d rest inductionHypothesis =>
      exact .cons (.refl _) (.cons (masks_blank d) inductionHypothesis)
  | case9 c d rest plain inductionHypothesis =>
      exact .cons (masks_blank _) inductionHypothesis
  | case10 quote c d rest plain inside inductionHypothesis =>
      exact .cons (masks_ite _ c) inductionHypothesis
  | case11 c => exact .cons (masks_ite' _ c) .nil
  | case12 c d rest comment inductionHypothesis =>
      exact .cons (masks_blank c) (.cons (masks_blank d) inductionHypothesis)
  | case13 c d rest slash comment inductionHypothesis =>
      exact .cons (masks_blank c) (.cons (masks_blank d) inductionHypothesis)
  | case14 c d rest slash comment quote inductionHypothesis =>
      exact .cons (masks_blank c) inductionHypothesis
  | case15 c d rest slash comment quote inductionHypothesis =>
      exact .cons (.refl c) inductionHypothesis

theorem masks_mask (src : Bytes) : List.Forall₂ Masks src (maskCommentsAndStrings src) :=
  masks_maskFrom .code src

@[simp] theorem length_mask (src : Bytes) : (maskCommentsAndStrings src).length = src.length :=
  (masks_mask src).length_eq.symm

theorem eq_of_masks {s t : Bytes} (masks : List.Forall₂ Masks s t) (solid : blank ∉ t) : t = s := by
  induction masks with
  | nil => rfl
  | cons first others inductionHypothesis =>
      obtain ⟨head, tail⟩ := List.ne_and_not_mem_of_not_mem_cons solid
      rw [first.resolve_right head.symm, inductionHypothesis tail]

theorem masks_slice {s t : Bytes} (masks : List.Forall₂ Masks s t) (first last : Nat) :
    List.Forall₂ Masks (slice s first last) (slice t first last) :=
  List.forall₂_take _ (List.forall₂_drop _ masks)

/-- No newline of a text before an offset is changed by the mask. -/
def KeepsNewlines (src code : Bytes) (off : Nat) : Prop :=
  ∀ i < off, byteAt src i = newline → byteAt code i = newline

/-- Newlines are only lost under the mask, and none is lost if the counts are the same. -/
theorem count_of_masks {s t : Bytes} (masks : List.Forall₂ Masks s t) : ∀ off,
    (t.take off).count newline ≤ (s.take off).count newline ∧
      ((t.take off).count newline = (s.take off).count newline ↔ KeepsNewlines s t off) := by
  induction masks with
  | nil => exact fun off => ⟨Nat.le_refl _, by simp [KeepsNewlines, byteAt, newline]⟩
  | @cons b c s t first others inductionHypothesis =>
      intro off
      cases off with
      | zero => simp [KeepsNewlines]
      | succ off =>
          obtain ⟨fewer, same⟩ := inductionHypothesis off
          have parts : KeepsNewlines (b :: s) (c :: t) (off + 1) ↔
              (b = newline → c = newline) ∧ KeepsNewlines s t off := by
            refine ⟨fun keeps => ⟨keeps 0 (Nat.succ_pos off), fun i less =>
              keeps (i + 1) (Nat.succ_lt_succ less)⟩, fun keeps i less => ?_⟩
            cases i with
            | zero => exact keeps.1
            | succ i => exact keeps.2 i (Nat.lt_of_succ_lt_succ less)
          rw [parts, ← same, List.take_succ_cons, List.take_succ_cons, List.count_cons,
            List.count_cons]
          by_cases feed : b = newline
          · rcases first with kept | masked
            · simp only [kept, feed, beq_self_eq_true, if_true, true_implies, true_and]
              omega
            · have lost : ¬c = newline := by rw [masked]; decide
              simp only [feed, beq_self_eq_true, if_true, lost, beq_iff_eq, if_false, imp_false,
                not_true_eq_false, false_and, iff_false]
              omega
          · have plain : ¬c = newline := by
              rcases first with kept | masked
              · rwa [kept]
              · rw [masked]
                decide
            simp only [feed, plain, beq_iff_eq, if_false, false_implies, true_and]
            exact ⟨fewer, Iff.rfl⟩

/-! ## Lines -/

/-- A line is the part of a text between its offsets, and stands behind a newline. -/
structure Line.In (l : Line) (code : Bytes) : Prop where
  begins : l.off = 0 ∨ byteAt code (l.off - 1) = newline
  shape : ∃ tail, code.drop l.off = l.sv ++ tail
  fin : l.fin = l.off + l.sv.length
  inside : l.fin ≤ code.length

theorem in_of_mem_placeLines {pieces : List Bytes} : ∀ {before : Bytes} {l : Line},
    before = [] ∨ before.getLast? = some newline → l ∈ placeLines before.length pieces →
      l.In (before ++ [newline].intercalate pieces) := by
  induction pieces with
  | nil => exact fun _ member => absurd member List.not_mem_nil
  | cons sv rest inductionHypothesis =>
      intro before l ends member
      have whole : ∃ tail, [newline].intercalate (sv :: rest) = sv ++ tail := by
        cases rest with
        | nil => exact ⟨[], by simp⟩
        | cons next rest => exact ⟨_, List.intercalate_cons_cons.trans (List.append_assoc ..)⟩
      rcases List.mem_cons.mp member with rfl | later
      · obtain ⟨tail, whole⟩ := whole
        refine ⟨?_, ⟨tail, by simp [whole]⟩, rfl, by simp [whole]⟩
        rcases ends with rfl | last
        · exact .inl rfl
        · obtain ⟨front, rfl⟩ := List.getLast?_eq_some_iff.mp last
          refine .inr ?_
          simp [byteAt]
      · cases rest with
        | nil => exact absurd later List.not_mem_nil
        | cons next rest =>
            have length : before.length + sv.length + 1 = (before ++ sv ++ [newline]).length := by
              simp [Nat.add_assoc]
            rw [length] at later
            rw [List.intercalate_cons_cons, ← List.append_assoc, ← List.append_assoc]
            exact inductionHypothesis (.inr (by simp)) later

theorem in_of_mem_linesOf {s : Bytes} {l : Line} (member : l ∈ linesOf s) : l.In s := by
  have found := @in_of_mem_placeLines _ [] l (.inl rfl) member
  rwa [List.nil_append, List.intercalate_splitOn] at found

/-- What is left of a line, from the place that its length says. -/
theorem Line.In.drop_of_suffix {l : Line} {code : Bytes} (inside : l.In code) {rest : Bytes}
    (suffix : rest <:+ l.sv) : l.off ≤ l.fin - rest.length ∧
      l.fin - rest.length + rest.length = l.fin ∧
      ∃ tail, code.drop (l.fin - rest.length) = rest ++ tail := by
  obtain ⟨front, split⟩ := suffix
  obtain ⟨tail, shape⟩ := inside.shape
  have length := congrArg List.length split
  rw [List.length_append] at length
  have fin := inside.fin
  have place : l.fin - rest.length = l.off + front.length := by omega
  refine ⟨by omega, by omega, tail, ?_⟩
  rw [place, ← List.drop_drop, shape, ← split, List.append_assoc, List.drop_left]

end Opencodepp.Graph
