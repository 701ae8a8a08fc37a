import Opencodepp.Graph.CppAccesses
import Opencodepp.Graph.GoAccesses

/-!
# Whether an extraction completes

An access that strays throws, and the extractor must not throw.  `completes_iff` says for which
texts an extraction completes: all texts of Go, and those of C and C++ of which no line is done
with `enum class`.
-/

set_option autoImplicit false

namespace Opencodepp.Graph.Scan

open Opencodepp.Core
open Opencodepp.Library
open Opencodepp.Library.Checked

/-! ## Lines that let an access stray -/

def Blanks (s : Bytes) : Prop := ∀ b ∈ s, isBlank b = true

/-- A line that is done with `enum class`: what is behind it has no blank, and is no more of the
identifier. -/
def EndsBehindEnumClass (line : Bytes) : Prop :=
  ∃ indent lead gap tail : Bytes,
    line = indent ++ (lead ++ (str "enum" ++ (gap ++ (str "class" ++ tail)))) ∧ Blanks indent ∧
      (lead = [] ∨ ∃ more, Blanks more ∧ lead = str "typedef" ++ more) ∧ gap ≠ [] ∧ Blanks gap ∧
        (∀ b ∈ tail, isBlank b = false) ∧ tail.head?.any isIdentChar = false

theorem split_ltrim (s : Bytes) : ∃ blanks, Blanks blanks ∧ s = blanks ++ Graph.ltrim s :=
  ⟨s.takeWhile isBlank, fun _ member => List.mem_takeWhile_imp member,
    (List.takeWhile_append_dropWhile ..).symm⟩

theorem ltrim_append {blanks s : Bytes} (all : Blanks blanks)
    (solid : s.head?.any isBlank = false) : Graph.ltrim (blanks ++ s) = s := by
  rw [Graph.ltrim, List.dropWhile_append_of_pos all]
  cases s with
  | nil => rfl
  | cons b rest => exact List.dropWhile_cons_of_neg (by simpa using solid)

/-- The identifier that a text starts with, and what is behind it. -/
theorem identOf_eq_iff {s w : Bytes} (word : ∀ b ∈ w, isIdentChar b = true) :
    identOf s = w ↔ ∃ rest, s = w ++ rest ∧ rest.head?.any isIdentChar = false := by
  constructor
  · intro same
    refine ⟨s.dropWhile isIdentChar, ?_, ?_⟩
    · rw [← same]
      exact (List.takeWhile_append_dropWhile ..).symm
    · have first := List.head?_dropWhile_not isIdentChar s
      cases left : s.dropWhile isIdentChar with
      | nil => rfl
      | cons b rest =>
          rw [left] at first
          simpa using first
  · rintro ⟨rest, rfl, other⟩
    rw [identOf, List.takeWhile_append_of_pos word]
    cases rest with
    | nil => simp
    | cons b rest => simpa using other

theorem not_identChar_of_blank {b : UInt8} (space : isBlank b = true) : isIdentChar b = false := by
  unfold isBlank at space
  rcases Bool.or_eq_true_iff.mp space with same | same <;> rw [of_decide_eq_true same] <;> decide

theorem ofSym_ne_throws (found : Option Sym) : Found.ofSym found ≠ .throws := by
  cases found <;> exact Found.noConfusion

theorem tagOf_throws_iff (code : Bytes) (l : Line) (w after : Bytes) :
    Graph.tagOf code l w after = .throws ↔
      w = str "enum" ∧ identOf after = str "class" ∧ ∀ b ∈ after, isBlank b = false := by
  unfold Graph.tagOf
  by_cases enumClass : w = str "enum" ∧ identOf after = str "class"
  · rw [if_pos enumClass, ← and_assoc, and_iff_right enumClass, ← List.findIdx?_eq_none_iff]
    cases after.findIdx? isBlank with
    | none => exact iff_of_true rfl rfl
    | some k => exact iff_of_false (ofSym_ne_throws _) (by simp)
  · rw [if_neg enumClass, ← and_assoc]
    exact iff_of_false (ofSym_ne_throws _) fun both => enumClass both.1

theorem classifyCpp_throws_iff (code : Bytes) (l : Line) :
    Graph.classifyCpp code l = .throws ↔
      identOf (untyped (Graph.ltrim l.sv)) = str "enum" ∧
        identOf (Graph.ltrim ((untyped (Graph.ltrim l.sv)).drop 4)) = str "class" ∧
          ∀ b ∈ Graph.ltrim ((untyped (Graph.ltrim l.sv)).drop 4), isBlank b = false := by
  unfold Graph.classifyCpp
  generalize Graph.ltrim l.sv = t
  dsimp only
  rw [← untyped]
  by_cases empty : t = []
  · subst empty
    rw [if_pos rfl]
    exact iff_of_false Found.noConfusion fun both => absurd both.1 (by decide)
  by_cases directive : t.head? = some (ch '#')
  · obtain ⟨rest, rfl⟩ := List.head?_eq_some_iff.mp directive
    rw [if_neg empty, if_pos directive]
    refine iff_of_false ?_ fun both => ?_
    · split
      · exact ofSym_ne_throws _
      · exact Found.noConfusion
    · have bare : ([] : Bytes) = str "enum" := both.1
      exact absurd bare (by decide)
  rw [if_neg empty, if_neg directive]
  generalize untyped t = rest
  by_cases tag : identOf rest ∈ ["struct", "class", "enum", "union"].map str
  · rw [if_pos tag, tagOf_throws_iff]
    constructor
    · rintro ⟨same, both⟩
      rw [same] at both
      exact ⟨same, both⟩
    · rintro ⟨same, both⟩
      rw [same]
      exact ⟨rfl, both⟩
  · rw [if_neg tag]
    refine iff_of_false ?_ fun both => tag (by rw [both.1]; decide)
    split
    · exact ofSym_ne_throws _
    · split <;> exact Found.noConfusion

/-- The line behind its indentation and the keyword of a type definition. -/
theorem untyped_eq_iff {line rest : Bytes} (plain : rest.head?.any isBlank = false)
    (other : (str "typedef").isPrefixOf rest = false) :
    untyped (Graph.ltrim line) = rest ↔ ∃ indent lead : Bytes, line = indent ++ (lead ++ rest) ∧
      Blanks indent ∧ (lead = [] ∨ ∃ more, Blanks more ∧ lead = str "typedef" ++ more) := by
  constructor
  · intro same
    obtain ⟨indent, blanks, whole⟩ := split_ltrim line
    unfold untyped at same
    split at same
    · next named =>
        obtain ⟨u, split⟩ := List.isPrefixOf_iff_prefix.mp named
        have length : (str "typedef").length = 7 := by decide
        rw [← split, ← length, List.drop_left] at same
        obtain ⟨more, gaps, left⟩ := split_ltrim u
        rw [same] at left
        refine ⟨indent, str "typedef" ++ more, ?_, blanks, .inr ⟨more, gaps, rfl⟩⟩
        rw [List.append_assoc, ← left, split, ← whole]
    · exact ⟨indent, [], by rw [List.nil_append, ← same, ← whole], blanks, .inl rfl⟩
  · rintro ⟨indent, lead, rfl, blanks, rfl | ⟨more, gaps, rfl⟩⟩
    · rw [List.nil_append, ltrim_append blanks plain, untyped, if_neg (by rw [other]; decide)]
    · rw [ltrim_append blanks rfl, untyped, if_pos (by simp)]
      have length : (str "typedef").length = 7 := by decide
      rw [List.append_assoc, ← length, List.drop_left, ltrim_append gaps plain]

/-- A line of C or C++ lets an access stray when it is done with `enum class`. -/
theorem throws_iff (code : Bytes) (l : Line) :
    Graph.classifyCpp code l = .throws ↔ EndsBehindEnumClass l.sv := by
  have enum : ∀ b ∈ str "enum", isIdentChar b = true := List.all_eq_true.mp rfl
  have class_ : ∀ b ∈ str "class", isIdentChar b = true := List.all_eq_true.mp rfl
  have length : (str "enum").length = 4 := by decide
  rw [classifyCpp_throws_iff]
  constructor
  · rintro ⟨word, name, solid⟩
    obtain ⟨x, whole, ends⟩ := (identOf_eq_iff enum).mp word
    rw [whole, ← length, List.drop_left] at name solid
    obtain ⟨tail, after, stops⟩ := (identOf_eq_iff class_).mp name
    obtain ⟨gap, blanks, left⟩ := split_ltrim x
    obtain ⟨indent, lead, line, indented, leads⟩ := (untyped_eq_iff rfl rfl).mp whole
    rw [after] at left solid
    refine ⟨indent, lead, gap, tail, by rw [line, left], indented, leads, ?_, blanks,
      fun b member => solid b (List.mem_append_right _ member), stops⟩
    rintro rfl
    have starts : x.head?.any isIdentChar = true := by
      rw [left]
      rfl
    exact Bool.false_ne_true (ends.symm.trans starts)
  · rintro ⟨indent, lead, gap, tail, line, indented, leads, apart, blanks, solid, stops⟩
    have other : (gap ++ (str "class" ++ tail)).head?.any isIdentChar = false := by
      obtain ⟨b, more, rfl⟩ := List.exists_cons_of_ne_nil apart
      exact not_identChar_of_blank (blanks b List.mem_cons_self)
    have whole : untyped (Graph.ltrim l.sv) = str "enum" ++ (gap ++ (str "class" ++ tail)) :=
      (untyped_eq_iff rfl rfl).mpr ⟨indent, lead, line, indented, leads⟩
    have after : Graph.ltrim ((untyped (Graph.ltrim l.sv)).drop 4) = str "class" ++ tail := by
      rw [whole, ← length, List.drop_left, ltrim_append blanks rfl]
    rw [after, whole]
    refine ⟨(identOf_eq_iff enum).mpr ⟨_, rfl, other⟩, (identOf_eq_iff class_).mpr ⟨_, rfl, stops⟩,
      fun b member => ?_⟩
    rcases List.mem_append.mp member with inside | behind
    · exact Bool.eq_false_iff.mpr (List.any_eq_false.mp rfl b inside)
    · exact solid b behind

/-! ## The extractor -/

/-- The extractor with every access checked. -/
def extractLang (lang : Lang) (file src : Bytes) : Checked Extraction :=
  match lang with
  | .unknown => .ok (.failed (.of .eNotImpl))
  | .c | .cpp => extractCpp file src
  | .go => extractGo file src

/-- The only access that strays is the one that the model has an outcome for. -/
theorem extractLang_eq (lang : Lang) (file src : Bytes) :
    extractLang lang file src = checkedExtraction (Graph.extractLang lang file src) := by
  cases lang with
  | unknown => rfl
  | c | cpp => exact extractCpp_eq file src
  | go => exact extractGo_eq file src

theorem sv_placeLines (pieces : List Bytes) : ∀ off,
    (placeLines off pieces).map Line.sv = pieces := by
  induction pieces with
  | nil => exact fun _ => rfl
  | cons sv rest inductionHypothesis =>
      exact fun off => congrArg (sv :: ·) (inductionHypothesis _)

/-- **An extraction strays over no text unless the language is C or C++ and some line, behind the
mask, is done with `enum class`.** -/
theorem completes_iff (lang : Lang) (file src : Bytes) :
    (∃ extraction, extractLang lang file src = .ok extraction) ↔
      ¬((lang = .c ∨ lang = .cpp) ∧
        ∃ line ∈ (Graph.maskCommentsAndStrings src).splitOn newline, EndsBehindEnumClass line) := by
  have throws : (∃ line ∈ (Graph.maskCommentsAndStrings src).splitOn newline,
      EndsBehindEnumClass line) ↔ .throws ∈ foundCpp (Graph.maskCommentsAndStrings src) := by
    rw [← sv_placeLines ((Graph.maskCommentsAndStrings src).splitOn newline) 0, foundCpp]
    simp only [List.mem_map, exists_exists_and_eq_and]
    exact exists_congr fun l => and_congr_right fun _ => (throws_iff _ l).symm
  have cpp : (∃ extraction, checkedExtraction (Graph.extractCpp file src) = .ok extraction) ↔
      .throws ∉ foundCpp (Graph.maskCommentsAndStrings src) := by
    unfold Graph.extractCpp
    dsimp only
    split
    · next strays => exact iff_of_false (fun ⟨_, same⟩ => by cases same) (not_not_intro strays)
    · next plain => exact iff_of_true ⟨_, rfl⟩ plain
  rw [extractLang_eq, throws]
  cases lang with
  | unknown => exact iff_of_true ⟨_, rfl⟩ (by simp)
  | go => exact iff_of_true ⟨_, rfl⟩ (by simp)
  | c | cpp => simpa [Graph.extractLang] using cpp

theorem enumClass_strays :
    ¬∃ extraction, extractLang .cpp (str "x.cpp") (str "enum class\n") = .ok extraction := by
  have strays : extractLang .cpp (str "x.cpp") (str "enum class\n") = .error .start := by rfl
  rw [strays]
  rintro ⟨_, same⟩
  cases same

end Opencodepp.Graph.Scan
