import Mathlib.Data.List.TakeWhile
import Opencodepp.Util.JsonGrammar

/-!
# The reader of strings and the grammar

What the slow path of the reader decodes is a string of the grammar in which units may stand
that are no UTF-16 (`parseEscaped_sound`), and every string whose units are UTF-16 is decoded to
what it denotes (`parseEscaped_complete`).  On strings without escapes the fast path gives the
same (`parseEscaped_plain`).
-/

set_option autoImplicit false

namespace Opencodepp.Util

open Opencodepp.Core
open Opencodepp.Library

variable {rules : Rules}

theorem eat_eq_some_iff {b : UInt8} {input rest : Bytes} :
    eat b input = some rest ↔ input = b :: rest := by
  constructor
  · intro eaten
    cases input with
    | nil => cases eaten
    | cons c more =>
        by_cases same : c = b
        · rw [same, eat_cons] at eaten
          rw [same, Option.some.inj eaten]
        · rw [eat_of_ne same] at eaten
          cases eaten
  · rintro rfl
    exact eat_cons b rest

/-! ## Escaped units -/

theorem isHigh_iff (cp : UInt32) :
    (decide (0xD800 ≤ cp) && decide (cp ≤ 0xDBFF)) = true ↔ IsHigh cp.toNat := by
  rw [Bool.and_eq_true, decide_eq_true_eq, decide_eq_true_eq, UInt32.le_iff_toNat_le,
    UInt32.le_iff_toNat_le]
  rfl

/-- A unit that is no high surrogate stands alone. -/
theorem unicodeEscape_unit {h : Bytes} {cp : UInt32} (unit : IsUnit h cp.toNat)
    (notHigh : ¬IsHigh cp.toNat) (rest : Bytes) : unicodeEscape (h ++ rest) = some (cp, rest) := by
  have read : hexQuad (h ++ rest) = some (cp, rest) := hexQuad_eq_some_iff.mpr ⟨h, rfl, unit⟩
  unfold unicodeEscape
  rw [read]
  dsimp only
  rw [if_neg (fun high => notHigh ((isHigh_iff cp).mp high))]

/-- A high surrogate is put together with the unit behind it. -/
theorem unicodeEscape_pair {h l : Bytes} {hi lo : UInt32} (unit : IsUnit h hi.toNat)
    (high : IsHigh hi.toNat) (unit' : IsUnit l lo.toNat) (rest : Bytes) :
    unicodeEscape (h ++ 0x5c :: 0x75 :: (l ++ rest)) =
      some (((hi - 0xD800) <<< 10) + 0x10000 + (lo - 0xDC00), rest) := by
  have read : hexQuad (h ++ 0x5c :: 0x75 :: (l ++ rest)) =
      some (hi, 0x5c :: 0x75 :: (l ++ rest)) := hexQuad_eq_some_iff.mpr ⟨h, rfl, unit⟩
  have read' : hexQuad (l ++ rest) = some (lo, rest) := hexQuad_eq_some_iff.mpr ⟨l, rfl, unit'⟩
  unfold unicodeEscape
  rw [read]
  dsimp only
  rw [if_pos ((isHigh_iff hi).mpr high)]
  split
  · next after same =>
      cases same
      rw [read']
  · next other => exact absurd rfl (other _)

/-- **An escape that is read is one of the grammar**, in which a unit may stand that is no
UTF-16. -/
theorem unicodeEscape_sound (lenient : rules.unpaired = true) {input rest : Bytes} {cp : UInt32}
    (read : unicodeEscape input = some (cp, rest)) :
    ∃ w, input = w ++ rest ∧ ∀ body s, Chars rules body s →
      Chars rules (0x5c :: 0x75 :: (w ++ body)) (utf8Encode cp ++ s) := by
  unfold unicodeEscape at read
  cases first : hexQuad input with
  | none =>
      rw [first] at read
      cases read
  | some found =>
      obtain ⟨hi, tail⟩ := found
      obtain ⟨h, rfl, unit⟩ := hexQuad_eq_some_iff.mp first
      rw [first] at read
      dsimp only at read
      by_cases high : IsHigh hi.toNat
      · rw [if_pos ((isHigh_iff hi).mpr high)] at read
        split at read
        · next tail' =>
          cases second : hexQuad tail' with
          | none =>
              rw [second] at read
              cases read
          | some found =>
              obtain ⟨lo, after⟩ := found
              obtain ⟨l, rfl, unit'⟩ := hexQuad_eq_some_iff.mp second
              rw [second] at read
              obtain ⟨rfl, rfl⟩ := Prod.mk.inj (Option.some.inj read)
              refine ⟨h ++ 0x5c :: 0x75 :: l, by simp, fun body s chars => ?_⟩
              have text : 0x5c :: 0x75 :: ((h ++ 0x5c :: 0x75 :: l) ++ body) =
                  0x5c :: 0x75 :: (h ++ 0x5c :: 0x75 :: (l ++ body)) := by simp
              rw [text]
              by_cases low : IsLow lo.toNat
              · have value := toNat_pair high low
                rw [utf8Encode_eq (value ▸ isScalar_pairValue high low), value]
                exact .pair unit high unit' low chars
              · exact .mismatched lenient unit high unit' low (utf8Encode_ne_nil _) chars
        · cases read
      · rw [if_neg (fun both => high ((isHigh_iff hi).mp both))] at read
        obtain ⟨rfl, rfl⟩ := Prod.mk.inj (Option.some.inj read)
        refine ⟨h, rfl, fun body s chars => ?_⟩
        by_cases low : IsLow hi.toNat
        · exact .lone lenient unit low (utf8Encode_ne_nil _) chars
        · rw [utf8Encode_eq (isScalar_unit (isUnit_lt unit) high low)]
          exact .unit unit high low chars

/-! ## The slow path -/

theorem isPlain_iff (c : UInt8) : isPlain c = true ↔ c ≠ 0x22 ∧ c ≠ 0x5c ∧ ¬c < 0x20 := by
  unfold isPlain
  simp [and_assoc]

/-- **What the slow path decodes is a string.** -/
theorem parseEscaped_sound (lenient : rules.unpaired = true) (fuel : Nat) :
    ∀ (owned input owned' rest : Bytes), parseEscaped fuel owned input = .ok (owned', rest) →
      ∃ body s, input = body ++ 0x22 :: rest ∧ Chars rules body s ∧ owned' = owned ++ s ∧
        (s = [] → body = []) := by
  induction fuel with
  | zero =>
      intro owned input owned' rest read
      cases read
  | succ fuel inductionHypothesis =>
      intro owned input owned' rest read
      cases input with
      | nil => cases read
      | cons c tail =>
          unfold parseEscaped at read
          by_cases quote : c = 0x22
          · rw [if_pos quote] at read
            cases read
            exact ⟨[], [], by rw [quote]; rfl, .nil, (List.append_nil _).symm, fun _ => rfl⟩
          · rw [if_neg quote] at read
            by_cases slash : c = 0x5c
            · rw [if_pos slash] at read
              cases tail with
              | nil => cases read
              | cons e tail =>
                  dsimp only at read
                  by_cases unit : e = ch 'u'
                  · rw [if_pos unit] at read
                    cases escape : unicodeEscape tail with
                    | none =>
                        rw [escape] at read
                        cases read
                    | some found =>
                        obtain ⟨cp, after⟩ := found
                        rw [escape] at read
                        obtain ⟨w, rfl, joins⟩ := unicodeEscape_sound lenient escape
                        obtain ⟨body, s, rfl, chars, rfl, -⟩ :=
                          inductionHypothesis _ _ _ _ read
                        refine ⟨0x5c :: 0x75 :: (w ++ body), utf8Encode cp ++ s, ?_,
                          joins body s chars, by rw [List.append_assoc], fun none_ => ?_⟩
                        · rw [slash, unit]
                          simp [ch]
                        · exact absurd (List.append_eq_nil_iff.mp none_).1 (utf8Encode_ne_nil cp)
                  · rw [if_neg unit] at read
                    cases short : shortEscape e with
                    | none =>
                        rw [short] at read
                        cases read
                    | some b =>
                        rw [short] at read
                        obtain ⟨body, s, rfl, chars, rfl, -⟩ :=
                          inductionHypothesis _ _ _ _ read
                        exact ⟨0x5c :: e :: body, b :: s, by rw [slash]; rfl, .short short chars,
                          by simp, fun none_ => absurd none_ (List.cons_ne_nil _ _)⟩
            · rw [if_neg slash] at read
              by_cases control : c < 0x20
              · rw [if_pos control] at read
                cases read
              · rw [if_neg control] at read
                obtain ⟨body, s, rfl, chars, rfl, -⟩ := inductionHypothesis _ _ _ _ read
                exact ⟨c :: body, c :: s, rfl,
                  .plain ((isPlain_iff c).mpr ⟨quote, slash, control⟩) chars, by simp,
                  fun none_ => absurd none_ (List.cons_ne_nil _ _)⟩

/-! ### The steps of the slow path -/

theorem parseEscaped_step_plain {c : UInt8} (plain : isPlain c = true) (fuel : Nat)
    (owned rest : Bytes) :
    parseEscaped (fuel + 1) owned (c :: rest) = parseEscaped fuel (owned ++ [c]) rest := by
  obtain ⟨quote, slash, control⟩ := (isPlain_iff c).mp plain
  conv_lhs => unfold parseEscaped
  rw [if_neg quote, if_neg slash, if_neg control]

theorem parseEscaped_step_short {e b : UInt8} (short : shortEscape e = some b) (fuel : Nat)
    (owned rest : Bytes) :
    parseEscaped (fuel + 1) owned (0x5c :: e :: rest) = parseEscaped fuel (owned ++ [b]) rest := by
  have unit : e ≠ ch 'u' := by
    rintro rfl
    have none_ : shortEscape (ch 'u') = none := by decide
    rw [none_] at short
    cases short
  conv_lhs => unfold parseEscaped
  rw [if_neg (by decide), if_pos rfl]
  dsimp only
  rw [if_neg unit, short]

/-- **A string whose units are UTF-16 is decoded to what it denotes.** -/
theorem parseEscaped_complete (strict : rules.unpaired = false) {body s : Bytes}
    (chars : Chars rules body s) : ∀ (fuel : Nat) (owned rest : Bytes), body.length < fuel →
      parseEscaped fuel owned (body ++ 0x22 :: rest) = .ok (owned ++ s, rest) := by
  have ofNat {u : Nat} (small : u < 0x10000) : (UInt32.ofNat u).toNat = u := by
    rw [UInt32.toNat_ofNat']
    omega
  induction chars with
  | nil =>
      intro fuel owned rest room
      obtain ⟨fuel, rfl⟩ := Nat.exists_eq_add_of_lt room
      rw [List.append_nil]
      rfl
  | plain isPlain_ _ inductionHypothesis =>
      intro fuel owned rest room
      obtain ⟨fuel, rfl⟩ : ∃ f, fuel = f + 1 := ⟨fuel - 1, by omega⟩
      rw [List.cons_append, parseEscaped_step_plain isPlain_,
        inductionHypothesis fuel _ rest (by simp at room; omega), List.append_assoc]
      rfl
  | short escape _ inductionHypothesis =>
      intro fuel owned rest room
      obtain ⟨fuel, rfl⟩ : ∃ f, fuel = f + 1 := ⟨fuel - 1, by omega⟩
      rw [List.cons_append, List.cons_append, parseEscaped_step_short escape,
        inductionHypothesis fuel _ rest (by simp at room; omega), List.append_assoc]
      rfl
  | unit isUnit_ notHigh notLow _ inductionHypothesis =>
      intro fuel owned rest room
      obtain ⟨fuel, rfl⟩ : ∃ f, fuel = f + 1 := ⟨fuel - 1, by omega⟩
      have same := ofNat (isUnit_lt isUnit_)
      rw [← same] at isUnit_ notHigh notLow ⊢
      rw [List.cons_append, List.cons_append, List.append_assoc,
        parseEscaped_step_unit (unicodeEscape_unit isUnit_ notHigh _),
        utf8Encode_eq (isScalar_unit (isUnit_lt isUnit_) notHigh notLow),
        inductionHypothesis fuel _ rest (by simp at room; omega), List.append_assoc]
  | pair first high second low _ inductionHypothesis =>
      intro fuel owned rest room
      obtain ⟨fuel, rfl⟩ : ∃ f, fuel = f + 1 := ⟨fuel - 1, by omega⟩
      have same := ofNat (isUnit_lt first)
      have same' := ofNat (isUnit_lt second)
      rw [← same] at first high ⊢
      rw [← same'] at second low ⊢
      have value := toNat_pair high low
      have text (h l rest' : Bytes) : 0x5c :: 0x75 :: (h ++ 0x5c :: 0x75 :: (l ++ rest')) ++
          0x22 :: rest =
          0x5c :: 0x75 :: (h ++ 0x5c :: 0x75 :: (l ++ (rest' ++ 0x22 :: rest))) := by simp
      rw [text, parseEscaped_step_unit (unicodeEscape_pair first high second _),
        utf8Encode_eq (value ▸ isScalar_pairValue high low), value,
        inductionHypothesis fuel _ rest (by simp at room; omega), List.append_assoc]
  | lone lenient => rw [strict] at lenient; cases lenient
  | mismatched lenient => rw [strict] at lenient; cases lenient

/-! ## Both paths -/

/-- What a plain string denotes is itself. -/
theorem chars_plain {body : Bytes} (plain : Plain body) : Chars rules body body := by
  induction body with
  | nil => exact .nil
  | cons c rest inductionHypothesis =>
      obtain ⟨first, others⟩ := List.forall_mem_cons.mp plain
      exact .plain first (inductionHypothesis others)

theorem Chars.eq_of_plain {body s : Bytes} (chars : Chars rules body s) (plain : Plain body) :
    s = body := by
  have slash : isPlain 0x5c = false := by decide
  have escaped {rest : Bytes} : ¬Plain (0x5c :: rest) := fun all => by
    have here := all 0x5c List.mem_cons_self
    rw [slash] at here
    cases here
  induction chars with
  | nil => rfl
  | plain _ _ inductionHypothesis =>
      rw [inductionHypothesis (List.forall_mem_cons.mp plain).2]
  | short => exact absurd plain escaped
  | unit => exact absurd plain escaped
  | pair => exact absurd plain escaped
  | lone => exact absurd plain escaped
  | mismatched => exact absurd plain escaped

/-- **The two paths agree**: on a string without escapes the slow path gives what the fast path
cuts out of the input. -/
theorem parseEscaped_plain {body : Bytes} (plain : Plain body) (rest : Bytes) :
    parseEscaped (body.length + 1) [] (body ++ 0x22 :: rest) = .ok (body, rest) :=
  @parseEscaped_complete rfc8259 rfl _ _ (chars_plain plain) _ [] rest (Nat.lt_succ_self _)

/-- Where a string with an escape stops to be plain there is a backslash. -/
theorem Chars.dropWhile_isPlain {body s : Bytes} (chars : Chars rules body s)
    (escaped : ¬Plain body) (tail : Bytes) :
    ∃ more, (body ++ tail).dropWhile isPlain = 0x5c :: more := by
  induction chars with
  | nil => exact absurd (fun b member => absurd member List.not_mem_nil) escaped
  | plain first _ inductionHypothesis =>
      obtain ⟨more, dropped⟩ := inductionHypothesis fun others =>
        escaped (List.forall_mem_cons.mpr ⟨first, others⟩)
      exact ⟨more, by rw [List.cons_append, List.dropWhile_cons_of_pos first, dropped]⟩
  | short => exact ⟨_, List.dropWhile_cons_of_neg (by decide)⟩
  | unit => exact ⟨_, List.dropWhile_cons_of_neg (by decide)⟩
  | pair => exact ⟨_, List.dropWhile_cons_of_neg (by decide)⟩
  | lone => exact ⟨_, List.dropWhile_cons_of_neg (by decide)⟩
  | mismatched => exact ⟨_, List.dropWhile_cons_of_neg (by decide)⟩

/-- A string without escapes is read on the fast path, which needs no buffer. -/
theorem parseString_plain {body : Bytes} (plain : Plain body) (rest : Bytes) :
    parseString (0x22 :: (body ++ 0x22 :: rest)) = .ok (body, [], rest) := by
  have stops : StopsAt isPlain (0x22 :: rest) := by
    rintro b first
    cases first
    rfl
  unfold parseString
  rw [eat_cons]
  dsimp only
  rw [dropWhile_run plain stops, takeWhile_run plain stops, eat_cons]

/-- **Strings are read as the grammar says.** -/
theorem parseString_complete (strict : rules.unpaired = false) {body s : Bytes}
    (chars : Chars rules body s) (rest : Bytes) :
    ∃ owned, parseString (0x22 :: (body ++ 0x22 :: rest)) = .ok (s, owned, rest) := by
  by_cases plain : Plain body
  · rw [chars.eq_of_plain plain]
    exact ⟨[], parseString_plain plain rest⟩
  · obtain ⟨more, dropped⟩ := chars.dropWhile_isPlain plain (0x22 :: rest)
    unfold parseString
    rw [eat_cons]
    dsimp only
    rw [dropped, eat_of_ne (by decide)]
    dsimp only
    have enough : body.length < (body ++ 0x22 :: rest).length + 1 := by
      rw [List.length_append, List.length_cons]
      omega
    rw [parseEscaped_complete strict chars _ [] rest enough]
    exact ⟨s, rfl⟩

/-- **What is read as a string is one**, and one that needed no buffer has no escapes. -/
theorem parseString_sound (lenient : rules.unpaired = true) {input s owned rest : Bytes}
    (read : parseString input = .ok (s, owned, rest)) :
    ∃ body, input = 0x22 :: (body ++ 0x22 :: rest) ∧ Chars rules body s ∧
      (owned = [] → Plain body ∧ s = body) := by
  unfold parseString at read
  cases opened : eat 0x22 input with
  | none =>
      rw [opened] at read
      cases read
  | some tail =>
      have text := eat_eq_some_iff.mp opened
      rw [opened] at read
      dsimp only at read
      have whole : tail.takeWhile isPlain ++ tail.dropWhile isPlain = tail :=
        List.takeWhile_append_dropWhile
      cases closed : eat 0x22 (tail.dropWhile isPlain) with
      | some after =>
          rw [closed] at read
          obtain ⟨rfl, rfl, rfl⟩ : tail.takeWhile isPlain = s ∧ [] = owned ∧ after = rest := by
            simpa using read
          have end_ := eat_eq_some_iff.mp closed
          have plain : Plain (tail.takeWhile isPlain) := fun b member =>
            List.mem_takeWhile_imp member
          rw [end_] at whole
          exact ⟨_, by rw [text, whole], chars_plain plain, fun _ => ⟨plain, rfl⟩⟩
      | none =>
          rw [closed] at read
          dsimp only at read
          cases slow : parseEscaped (tail.length + 1) [] tail with
          | error e =>
              rw [slow] at read
              cases read
          | ok found =>
              obtain ⟨decoded, after⟩ := found
              rw [slow] at read
              obtain ⟨rfl, rfl, rfl⟩ : decoded = s ∧ decoded = owned ∧ after = rest := by
                simpa using read
              obtain ⟨body, s, rfl, chars, same, empty⟩ :=
                parseEscaped_sound lenient _ _ _ _ _ slow
              rw [List.nil_append] at same
              refine ⟨body, text, same ▸ chars, fun none_ => ?_⟩
              rw [empty (same ▸ none_)] at closed
              cases closed

end Opencodepp.Util
