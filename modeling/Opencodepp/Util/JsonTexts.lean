import Opencodepp.Util.JsonStrings

/-!
# The reader and the grammar

The reader accepts every text of the grammar with its value, and nothing else, up to two things:
the digits of a number may begin with zeros, and it does not check that units are UTF-16.
`parseJson_text` is put together from the numbers, the strings of `JsonStrings`, and one
induction over the fuel in each direction.
-/

set_option autoImplicit false

namespace Opencodepp.Util

open Opencodepp.Core
open Opencodepp.Library

variable {rules : Rules}

/-! ## Numbers -/

theorem parseDigits_sound {input digits rest : Bytes}
    (read : parseDigits input = some (digits, rest)) : input = digits ++ rest ∧ IsDigits digits := by
  have whole : input.takeWhile isDigit ++ input.dropWhile isDigit = input :=
    List.takeWhile_append_dropWhile
  have all : ∀ b ∈ input.takeWhile isDigit, isDigit b = true :=
    fun b member => List.mem_takeWhile_imp member
  unfold parseDigits at read
  cases taken : input.takeWhile isDigit with
  | nil =>
      rw [taken] at read
      cases read
  | cons d more =>
      rw [taken] at read whole all
      obtain ⟨rfl, rfl⟩ := Prod.mk.inj (Option.some.inj read)
      exact ⟨whole.symm, List.cons_ne_nil _ _, all⟩

theorem parseFraction_sound {input fraction rest : Bytes}
    (read : parseFraction input = some (fraction, rest)) :
    ∃ f, input = f ++ rest ∧ Fraction f fraction := by
  unfold parseFraction at read
  cases point : eat 0x2e input with
  | none =>
      rw [point] at read
      obtain ⟨rfl, rfl⟩ := Prod.mk.inj (Option.some.inj read)
      exact ⟨[], rfl, .absent⟩
  | some tail =>
      rw [point] at read
      obtain ⟨rfl, digits⟩ := parseDigits_sound read
      exact ⟨0x2e :: fraction, eat_eq_some_iff.mp point, .digits digits⟩

theorem parseExponent_sound {input exponent rest : Bytes} {expNegative : Bool}
    (read : parseExponent input = some (expNegative, exponent, rest)) :
    ∃ x, input = x ++ rest ∧ Exponent x expNegative exponent := by
  unfold parseExponent at read
  cases input with
  | nil =>
      obtain ⟨rfl, rfl, rfl⟩ : false = expNegative ∧ [] = exponent ∧ [] = rest := by
        simpa using read
      exact ⟨[], rfl, .absent⟩
  | cons e tail =>
      dsimp only at read
      by_cases mark : (decide (e = ch 'e') || decide (e = ch 'E')) = true
      · rw [if_pos mark] at read
        have isMark : e = ch 'e' ∨ e = ch 'E' := by simpa using mark
        cases tail with
        | nil => cases read
        | cons s unsigned =>
            dsimp only at read
            by_cases signed : (decide (s = 0x2b) || decide (s = 0x2d)) = true
            · rw [if_pos signed, Option.map_eq_some_iff] at read
              obtain ⟨⟨digits, after⟩, taken, same⟩ := read
              obtain ⟨rfl, rfl, rfl⟩ : decide (s = 0x2d) = expNegative ∧ digits = exponent ∧
                  after = rest := by simpa using same
              obtain ⟨rfl, isDigits⟩ := parseDigits_sound taken
              by_cases minus : s = 0x2d
              · rw [minus]
                exact ⟨e :: 0x2d :: digits, rfl, .minus isMark isDigits⟩
              · have plus : s = 0x2b := by simpa [minus] using signed
                rw [plus]
                exact ⟨e :: 0x2b :: digits, rfl, .plus isMark isDigits⟩
            · rw [if_neg signed, Option.map_eq_some_iff] at read
              obtain ⟨⟨digits, after⟩, taken, same⟩ := read
              obtain ⟨rfl, rfl, rfl⟩ : false = expNegative ∧ digits = exponent ∧
                  after = rest := by simpa using same
              obtain ⟨split, isDigits⟩ := parseDigits_sound taken
              exact ⟨e :: digits, by rw [split]; rfl, .unsigned isMark isDigits⟩
      · rw [if_neg mark] at read
        obtain ⟨rfl, rfl, rfl⟩ : false = expNegative ∧ [] = exponent ∧ e :: tail = rest := by
          simpa using read
        exact ⟨[], rfl, .absent⟩

/-- **What is read as a number is one**, whose digits may begin with zeros. -/
theorem parseNumber_sound (lenient : rules.leadingZeros = true) {input rest : Bytes} {v : JVal}
    (read : parseNumber input = some (v, rest)) :
    ∃ w q, input = w ++ rest ∧ NumberText rules w q ∧ v = .number q := by
  unfold parseNumber at read
  simp only [Option.bind_eq_bind, Option.bind_eq_some_iff, Option.some.injEq,
    Prod.mk.injEq] at read
  obtain ⟨⟨whole, afterWhole⟩, readWhole, ⟨fraction, afterFraction⟩, readFraction,
    ⟨expNegative, exponent, after⟩, readExponent, rfl, rfl⟩ := read
  dsimp only at readFraction readExponent
  obtain ⟨unsigned, digits⟩ := parseDigits_sound readWhole
  obtain ⟨f, rfl, isFraction⟩ := parseFraction_sound readFraction
  obtain ⟨x, rfl, isExponent⟩ := parseExponent_sound readExponent
  refine ⟨_, _, ?_, .mk (eat 0x2d input).isSome ⟨digits, .inl lenient⟩ isFraction isExponent, rfl⟩
  cases minus : eat 0x2d input with
  | none =>
      rw [minus] at unsigned
      simpa using unsigned
  | some tail =>
      rw [minus] at unsigned
      have text := eat_eq_some_iff.mp minus
      rw [show tail = whole ++ (f ++ (x ++ after)) from unsigned] at text
      simpa using text

theorem parseFraction_complete {f fraction rest : Bytes} (isFraction : Fraction f fraction)
    (stops : StopsAt (fun b => isDigit b || b = 0x2e) rest) :
    parseFraction (f ++ rest) = some (fraction, rest) := by
  cases isFraction with
  | absent =>
      show parseFraction rest = _
      have none_ : eat 0x2e rest = none := by
        cases rest with
        | nil => rfl
        | cons b more =>
            have other := stops b rfl
            simp only [Bool.or_eq_false_iff, decide_eq_false_iff_not] at other
            exact eat_of_ne other.2 more
      unfold parseFraction
      rw [none_]
  | digits isDigits =>
      have after : StopsAt isDigit rest := stops.mono fun b other => by
        simp only [Bool.or_eq_false_iff] at other
        exact other.1
      show parseDigits (fraction ++ rest) = _
      exact parseDigits_run isDigits.1 isDigits.2 after

theorem parseExponent_complete {x exponent rest : Bytes} {expNegative : Bool}
    (isExponent : Exponent x expNegative exponent) (stops : StopsAt continuesNumber rest) :
    parseExponent (x ++ rest) = some (expNegative, exponent, rest) := by
  have after : StopsAt isDigit rest := stops.mono fun _ => isDigit_of_stops
  have marked {e : UInt8} (mark : e = ch 'e' ∨ e = ch 'E') :
      (decide (e = ch 'e') || decide (e = ch 'E')) = true := by simpa using mark
  cases isExponent with
  | absent =>
      cases rest with
      | nil => rfl
      | cons b more =>
          have other := stops b rfl
          unfold continuesNumber at other
          simp only [Bool.or_eq_false_iff, decide_eq_false_iff_not] at other
          show parseExponent (b :: more) = _
          unfold parseExponent
          simp [other.1.2, other.2]
  | unsigned mark isDigits =>
      obtain ⟨some_, all⟩ := isDigits
      obtain ⟨d, more, rfl⟩ := List.exists_cons_of_ne_nil some_
      have digit := all d List.mem_cons_self
      have unsigned : ¬(decide (d = 0x2b) || decide (d = 0x2d)) = true := by
        intro sign
        rcases (by simpa using sign : d = 0x2b ∨ d = 0x2d) with rfl | rfl <;> cases digit
      rw [List.cons_append, List.cons_append]
      unfold parseExponent
      dsimp only
      rw [if_pos (marked mark), if_neg unsigned, ← List.cons_append,
        parseDigits_run some_ all after]
      rfl
  | plus mark isDigits =>
      rw [List.cons_append, List.cons_append]
      unfold parseExponent
      dsimp only
      rw [if_pos (marked mark), if_pos (by decide), parseDigits_run isDigits.1 isDigits.2 after]
      rfl
  | minus mark isDigits =>
      rw [List.cons_append, List.cons_append]
      unfold parseExponent
      dsimp only
      rw [if_pos (marked mark), if_pos (by decide), parseDigits_run isDigits.1 isDigits.2 after]
      rfl

/-- The first byte after the digits before the point is no digit. -/
theorem stops_fraction {f fraction x exponent rest : Bytes} {expNegative : Bool}
    (isFraction : Fraction f fraction) (isExponent : Exponent x expNegative exponent)
    (stops : StopsAt continuesNumber rest) :
    StopsAt (fun b => isDigit b || b = 0x2e) (x ++ rest) ∧ StopsAt isDigit (f ++ (x ++ rest)) := by
  have mark {e : UInt8} (isMark : e = ch 'e' ∨ e = ch 'E') (tail : Bytes) :
      StopsAt (fun b => isDigit b || b = 0x2e) (e :: tail) := by
    rintro b first
    cases first
    rcases isMark with rfl | rfl <;> decide
  have exponent_ : StopsAt (fun b => isDigit b || b = 0x2e) (x ++ rest) := by
    cases isExponent with
    | absent =>
        refine stops.mono fun b other => ?_
        unfold continuesNumber at other
        simp only [Bool.or_eq_false_iff] at other ⊢
        exact other.1.1
    | unsigned isMark => exact mark isMark _
    | plus isMark => exact mark isMark _
    | minus isMark => exact mark isMark _
  refine ⟨exponent_, ?_⟩
  cases isFraction with
  | absent =>
      exact exponent_.mono fun b other => by
        simp only [Bool.or_eq_false_iff] at other
        exact other.1
  | digits =>
      rintro b first
      cases first
      decide

/-- **A number is read to its end.** -/
theorem parseNumber_complete {w rest : Bytes} {q : Rat} (number : NumberText rules w q)
    (stops : StopsAt continuesNumber rest) : parseNumber (w ++ rest) = some (.number q, rest) := by
  obtain ⟨negative, isWhole, isFraction, isExponent⟩ := number
  rename_i whole f fraction x exponent expNegative
  obtain ⟨afterFraction, afterWhole⟩ := stops_fraction isFraction isExponent stops
  obtain ⟨⟨some_, all⟩, -⟩ := isWhole
  have readWhole := parseDigits_run some_ all afterWhole
  have readFraction := parseFraction_complete isFraction afterFraction
  have readExponent := parseExponent_complete isExponent stops
  have text : ((if negative then [0x2d] else []) ++ (whole ++ (f ++ x))) ++ rest =
      (if negative then [0x2d] else []) ++ (whole ++ (f ++ (x ++ rest))) := by simp
  have minus : eat 0x2d ((if negative then [0x2d] else []) ++ (whole ++ (f ++ (x ++ rest)))) =
      if negative then some (whole ++ (f ++ (x ++ rest))) else none := by
    cases negative with
    | true => exact eat_cons _ _
    | false =>
        obtain ⟨d, more, rfl⟩ := List.exists_cons_of_ne_nil some_
        have digit := all d List.mem_cons_self
        have other : d ≠ 0x2d := by
          rintro rfl
          cases digit
        exact eat_of_ne other _
  have unsigned : (eat 0x2d ((if negative then [0x2d] else []) ++
      (whole ++ (f ++ (x ++ rest))))).getD ((if negative then [0x2d] else []) ++
        (whole ++ (f ++ (x ++ rest)))) = whole ++ (f ++ (x ++ rest)) := by
    rw [minus]
    cases negative <;> rfl
  have signed : (eat 0x2d ((if negative then [0x2d] else []) ++
      (whole ++ (f ++ (x ++ rest))))).isSome = negative := by
    rw [minus]
    cases negative <;> rfl
  unfold parseNumber
  dsimp only
  rw [text, unsigned, readWhole]
  show (parseFraction _).bind _ = _
  rw [readFraction]
  show (parseExponent _).bind _ = _
  rw [readExponent, signed]
  rfl

/-! ## White space -/

theorem Ws.nil : Ws [] := fun _ member => absurd member List.not_mem_nil

theorem Ws.append {a b : Bytes} (first : Ws a) (second : Ws b) : Ws (a ++ b) :=
  fun c member => (List.mem_append.mp member).elim (first c) (second c)

/-- The white space in front is skipped. -/
theorem exists_skipWs (input : Bytes) : ∃ a, Ws a ∧ input = a ++ skipWs input :=
  ⟨input.takeWhile isWs, fun _ member => List.mem_takeWhile_imp member,
    List.takeWhile_append_dropWhile.symm⟩

theorem skipWs_append {a rest : Bytes} (ws : Ws a) (stops : StopsAt isWs rest) :
    skipWs (a ++ rest) = rest :=
  dropWhile_run ws stops

theorem skipWs_ink {a : Bytes} (ws : Ws a) {c : UInt8} (ink : isWs c = false) (rest : Bytes) :
    skipWs (a ++ c :: rest) = c :: rest := by
  refine skipWs_append ws ?_
  rintro b first
  cases first
  exact ink

theorem continuesNumber_of_isWs {b : UInt8} (white : isWs b = true) : continuesNumber b = false := by
  unfold isWs at white
  simp only [Bool.or_eq_true, beq_iff_eq] at white
  rcases white with ((rfl | rfl) | rfl) | rfl <;> decide

/-- White space ends a number. -/
theorem stops_ws {a rest : Bytes} (ws : Ws a) (stops : StopsAt continuesNumber rest) :
    StopsAt continuesNumber (a ++ rest) := by
  cases a with
  | nil => exact stops
  | cons b more => exact stopsAt_cons (continuesNumber_of_isWs (ws b List.mem_cons_self)) _

/-! ## What is read is a text -/

/-- White space in front of elements belongs to them. -/
theorem ElementsText.prepend {a w : Bytes} {arr : List JVal} (ws : Ws a)
    (elements : ElementsText rules w arr) : ElementsText rules (a ++ w) arr := by
  cases elements with
  | last first value after =>
      rw [← List.append_assoc]
      exact .last (ws.append first) value after
  | more first value after others =>
      rw [← List.append_assoc]
      exact .more (ws.append first) value after others

theorem MembersText.prepend {a w : Bytes} {obj : List (Bytes × JVal)} (ws : Ws a)
    (members : MembersText rules w obj) : MembersText rules (a ++ w) obj := by
  cases members with
  | last first plain before after value last =>
      rw [← List.append_assoc]
      exact .last (ws.append first) plain before after value last
  | more first plain before after value last others =>
      rw [← List.append_assoc]
      exact .more (ws.append first) plain before after value last others

theorem parseName_sound {name input rest : Bytes} {v v' : JVal}
    (read : parseName name v input = .ok (v', rest)) : input = name ++ rest ∧ v' = v := by
  unfold parseName at read
  split at read
  · next named =>
    obtain ⟨more, rfl⟩ := List.isPrefixOf_iff_prefix.mp named
    obtain ⟨rfl, rfl⟩ : v = v' ∧ (name ++ more).drop name.length = rest := by simpa using read
    simp
  · cases read

/-- What is read with so much fuel is of the grammar. -/
structure SoundAt (rules : Rules) (fuel : Nat) : Prop where
  value : ∀ {input v rest}, parseValue fuel input = .ok (v, rest) →
    ∃ a w, input = a ++ (w ++ rest) ∧ Ws a ∧ ValueText rules w v
  elements : ∀ {before input v rest}, parseElements fuel before input = .ok (v, rest) →
    ∃ w arr, input = w ++ 0x5d :: rest ∧ ElementsText rules w arr ∧ v = .array (before ++ arr)
  members : ∀ {before input v rest}, parseMembers fuel before input = .ok (v, rest) →
    ∃ w obj, input = w ++ 0x7d :: rest ∧ MembersText rules w obj ∧ v = .object (before ++ obj)

section Sound

variable (zeros : rules.leadingZeros = true) (units : rules.unpaired = true) {fuel : Nat}

include zeros units in
theorem value_sound (later : SoundAt rules fuel) {input rest : Bytes} {v : JVal}
    (read : parseValue (fuel + 1) input = .ok (v, rest)) :
    ∃ a w, input = a ++ (w ++ rest) ∧ Ws a ∧ ValueText rules w v := by
  obtain ⟨a, ws, split⟩ := exists_skipWs input
  refine ⟨a, ?_⟩
  rw [split]
  unfold parseValue at read
  cases start : skipWs input with
  | nil =>
      rw [start] at read
      cases read
  | cons c tail =>
      rw [start] at read
      dsimp only at read
      suffices found : ∃ w, c :: tail = w ++ rest ∧ ValueText rules w v by
        obtain ⟨w, text, value⟩ := found
        exact ⟨w, by rw [text], ws, value⟩
      obtain ⟨b, ws', inside⟩ := exists_skipWs tail
      by_cases brace : c = 0x7b
      · rw [if_pos brace] at read
        cases close : eat 0x7d (skipWs tail) with
        | some after =>
            rw [close] at read
            obtain ⟨rfl, rfl⟩ : JVal.object [] = v ∧ after = rest := by simpa using read
            rw [eat_eq_some_iff.mp close] at inside
            exact ⟨_, by rw [brace, inside]; simp, .emptyObject ws'⟩
        | none =>
            rw [close] at read
            obtain ⟨w, obj, text, members, rfl⟩ := later.members read
            rw [text] at inside
            exact ⟨_, by rw [brace, inside]; simp, .object (members.prepend ws')⟩
      · rw [if_neg brace] at read
        by_cases bracket : c = 0x5b
        · rw [if_pos bracket] at read
          cases close : eat 0x5d (skipWs tail) with
          | some after =>
              rw [close] at read
              obtain ⟨rfl, rfl⟩ : JVal.array [] = v ∧ after = rest := by simpa using read
              rw [eat_eq_some_iff.mp close] at inside
              exact ⟨_, by rw [bracket, inside]; simp, .emptyArray ws'⟩
          | none =>
              rw [close] at read
              obtain ⟨w, arr, text, elements, rfl⟩ := later.elements read
              rw [text] at inside
              exact ⟨_, by rw [bracket, inside]; simp, .array (elements.prepend ws')⟩
        · rw [if_neg bracket] at read
          by_cases quote : c = 0x22
          · rw [if_pos quote] at read
            cases text : parseString (c :: tail) with
            | error e =>
                rw [text] at read
                cases read
            | ok found =>
                obtain ⟨s, owned, after⟩ := found
                rw [text] at read
                obtain ⟨rfl, rfl⟩ : JVal.string s = v ∧ after = rest := by simpa using read
                obtain ⟨body, whole, chars, -⟩ := parseString_sound units text
                exact ⟨_, by rw [whole]; simp, .string chars⟩
          · rw [if_neg quote] at read
            by_cases isTrue_ : c = ch 't'
            · rw [if_pos isTrue_] at read
              obtain ⟨text, rfl⟩ := parseName_sound read
              exact ⟨_, text, .true_⟩
            · rw [if_neg isTrue_] at read
              by_cases isFalse_ : c = ch 'f'
              · rw [if_pos isFalse_] at read
                obtain ⟨text, rfl⟩ := parseName_sound read
                exact ⟨_, text, .false_⟩
              · rw [if_neg isFalse_] at read
                by_cases isNull : c = ch 'n'
                · rw [if_pos isNull] at read
                  obtain ⟨text, rfl⟩ := parseName_sound read
                  exact ⟨_, text, .null⟩
                · rw [if_neg isNull] at read
                  cases number : parseNumber (c :: tail) with
                  | none =>
                      rw [number] at read
                      cases read
                  | some found =>
                      rw [number] at read
                      obtain rfl := Except.ok.inj read
                      obtain ⟨w, q, text, isNumber, rfl⟩ := parseNumber_sound zeros number
                      exact ⟨w, text, .number isNumber⟩

theorem elements_sound (later : SoundAt rules fuel) {before : List JVal} {input rest : Bytes}
    {v : JVal} (read : parseElements (fuel + 1) before input = .ok (v, rest)) :
    ∃ w arr, input = w ++ 0x5d :: rest ∧ ElementsText rules w arr ∧
      v = .array (before ++ arr) := by
  unfold parseElements at read
  cases first : parseValue fuel input with
  | error e =>
      rw [first] at read
      cases read
  | ok found =>
      obtain ⟨val, tail⟩ := found
      rw [first] at read
      dsimp only at read
      obtain ⟨a, w, rfl, ws, value⟩ := later.value first
      obtain ⟨b, ws', inside⟩ := exists_skipWs tail
      cases close : eat 0x5d (skipWs tail) with
      | some after =>
          rw [close] at read
          obtain ⟨rfl, rfl⟩ : JVal.array (before ++ [val]) = v ∧ after = rest := by
            simpa using read
          rw [eat_eq_some_iff.mp close] at inside
          exact ⟨_, [val], by rw [inside]; simp, .last ws value ws', rfl⟩
      | none =>
          rw [close] at read
          dsimp only at read
          cases comma : eat 0x2c (skipWs tail) with
          | none =>
              rw [comma] at read
              cases read
          | some after =>
              rw [comma] at read
              rw [eat_eq_some_iff.mp comma] at inside
              obtain ⟨w', arr, rfl, others, rfl⟩ := later.elements read
              exact ⟨_, val :: arr, by rw [inside]; simp, .more ws value ws' others, by simp⟩

include units in
theorem members_sound (later : SoundAt rules fuel) {before : List (Bytes × JVal)}
    {input rest : Bytes} {v : JVal} (read : parseMembers (fuel + 1) before input = .ok (v, rest)) :
    ∃ w obj, input = w ++ 0x7d :: rest ∧ MembersText rules w obj ∧
      v = .object (before ++ obj) := by
  obtain ⟨a, ws, split⟩ := exists_skipWs input
  unfold parseMembers at read
  cases name : parseString (skipWs input) with
  | error e =>
      rw [name] at read
      cases read
  | ok found =>
      obtain ⟨key, owned, tail⟩ := found
      rw [name] at read
      dsimp only at read
      by_cases escaped : owned = []
      · rw [if_neg (not_not.mpr escaped)] at read
        obtain ⟨body, text, -, plain⟩ := parseString_sound units name
        obtain ⟨plain, rfl⟩ := plain escaped
        rw [text] at split
        obtain ⟨b, ws', inside⟩ := exists_skipWs tail
        cases colon : eat 0x3a (skipWs tail) with
        | none =>
            rw [colon] at read
            cases read
        | some tail' =>
            rw [colon] at read
            dsimp only at read
            rw [eat_eq_some_iff.mp colon] at inside
            cases first : parseValue fuel tail' with
            | error e =>
                rw [first] at read
                cases read
            | ok found =>
                obtain ⟨val, tail''⟩ := found
                rw [first] at read
                dsimp only at read
                obtain ⟨c, w, rfl, ws'', value⟩ := later.value first
                obtain ⟨d, wsLast, inside'⟩ := exists_skipWs tail''
                cases close : eat 0x7d (skipWs tail'') with
                | some after =>
                    rw [close] at read
                    obtain ⟨rfl, rfl⟩ : JVal.object (before ++ [(key, val)]) = v ∧
                        after = rest := by simpa using read
                    rw [eat_eq_some_iff.mp close] at inside'
                    exact ⟨_, [(key, val)], by rw [split, inside, inside']; simp,
                      .last ws plain ws' ws'' value wsLast, rfl⟩
                | none =>
                    rw [close] at read
                    dsimp only at read
                    cases comma : eat 0x2c (skipWs tail'') with
                    | none =>
                        rw [comma] at read
                        cases read
                    | some after =>
                        rw [comma] at read
                        rw [eat_eq_some_iff.mp comma] at inside'
                        obtain ⟨w', obj, rfl, others, rfl⟩ := later.members read
                        exact ⟨_, (key, val) :: obj, by rw [split, inside, inside']; simp,
                          .more ws plain ws' ws'' value wsLast others, by simp⟩
      · rw [if_pos escaped] at read
        cases read

include zeros units in
/-- **What is read is of the grammar**, by induction on the fuel. -/
theorem soundAt (fuel : Nat) : SoundAt rules fuel := by
  induction fuel with
  | zero =>
      constructor
      · intro _ _ _ read
        cases read
      · intro _ _ _ _ read
        cases read
      · intro _ _ _ _ read
        cases read
  | succ fuel inductionHypothesis =>
      exact ⟨value_sound zeros units inductionHypothesis, elements_sound inductionHypothesis,
        members_sound units inductionHypothesis⟩

end Sound

/-! ## Texts are read -/

theorem NumberText.head {w : Bytes} {q : Rat} (number : NumberText rules w q) :
    ∃ c more, w = c :: more ∧ (isDigit c = true ∨ c = 0x2d) := by
  obtain ⟨negative, ⟨⟨some_, all⟩, -⟩, -, -⟩ := number
  obtain ⟨d, more, rfl⟩ := List.exists_cons_of_ne_nil some_
  cases negative with
  | false => exact ⟨d, _, rfl, .inl (all d List.mem_cons_self)⟩
  | true => exact ⟨0x2d, _, rfl, .inr rfl⟩

theorem ValueText.head {w : Bytes} {v : JVal} (value : ValueText rules w v) :
    ∃ c more, w = c :: more ∧ isWs c = false ∧ c ≠ 0x5d := by
  cases value with
  | null => exact ⟨ch 'n', _, rfl, rfl, by decide⟩
  | true_ => exact ⟨ch 't', _, rfl, rfl, by decide⟩
  | false_ => exact ⟨ch 'f', _, rfl, rfl, by decide⟩
  | number isNumber =>
      obtain ⟨c, more, form, head⟩ := isNumber.head
      exact ⟨c, more, form, (number_head head).1, (number_head head).2.1⟩
  | string => exact ⟨0x22, _, rfl, rfl, by decide⟩
  | emptyArray => exact ⟨0x5b, _, rfl, rfl, by decide⟩
  | array => exact ⟨0x5b, _, rfl, rfl, by decide⟩
  | emptyObject => exact ⟨0x7b, _, rfl, rfl, by decide⟩
  | object => exact ⟨0x7b, _, rfl, rfl, by decide⟩

/-- Elements without the white space in front of the first. -/
theorem ElementsText.start {w : Bytes} {arr : List JVal} (elements : ElementsText rules w arr) :
    ∃ a c more, w = a ++ c :: more ∧ Ws a ∧ isWs c = false ∧ c ≠ 0x5d ∧
      ElementsText rules (c :: more) arr := by
  cases elements with
  | last first value after =>
      obtain ⟨c, more, rfl, ink, other⟩ := value.head
      exact ⟨_, c, _, rfl, first, ink, other, .last Ws.nil value after⟩
  | more first value after others =>
      obtain ⟨c, more, rfl, ink, other⟩ := value.head
      exact ⟨_, c, _, rfl, first, ink, other, .more Ws.nil value after others⟩

/-- Members without the white space in front of the first. -/
theorem MembersText.start {w : Bytes} {obj : List (Bytes × JVal)}
    (members : MembersText rules w obj) :
    ∃ a more, w = a ++ 0x22 :: more ∧ Ws a ∧ MembersText rules (0x22 :: more) obj := by
  cases members with
  | last first plain before after value last =>
      exact ⟨_, _, rfl, first, .last Ws.nil plain before after value last⟩
  | more first plain before after value last others =>
      exact ⟨_, _, rfl, first, .more Ws.nil plain before after value last others⟩

/-- The white space in front of a value is skipped. -/
theorem parseValue_ws {a : Bytes} (ws : Ws a) {c : UInt8} (ink : isWs c = false) (fuel : Nat)
    (more : Bytes) : parseValue fuel (a ++ c :: more) = parseValue fuel (c :: more) := by
  cases fuel with
  | zero => rfl
  | succ fuel =>
      unfold parseValue
      rw [skipWs_ink ws ink, skipWs_cons ink]

theorem parseValue_numberText (fuel : Nat) {w rest : Bytes} {q : Rat}
    (number : NumberText rules w q) (stops : StopsAt continuesNumber rest) :
    parseValue (fuel + 1) (w ++ rest) = .ok (.number q, rest) := by
  have read := parseNumber_complete number stops
  obtain ⟨c, more, rfl, head⟩ := number.head
  obtain ⟨ink, -, brace, bracket, quote, true_, false_, null_⟩ := number_head head
  unfold parseValue
  rw [List.cons_append] at read ⊢
  rw [skipWs_cons ink]
  dsimp only
  rw [if_neg brace, if_neg bracket, if_neg quote, if_neg true_, if_neg false_, if_neg null_, read]

/-- What is of the grammar is read with so much fuel. -/
structure CompleteAt (rules : Rules) (fuel : Nat) : Prop where
  value : ∀ {w v} (rest : Bytes), ValueText rules w v → w.length ≤ fuel →
    StopsAt continuesNumber rest → parseValue fuel (w ++ rest) = .ok (v, rest)
  elements : ∀ {w arr} (before : List JVal) (rest : Bytes), ElementsText rules w arr →
    w.length < fuel →
      parseElements fuel before (w ++ 0x5d :: rest) = .ok (.array (before ++ arr), rest)
  members : ∀ {w obj} (before : List (Bytes × JVal)) (rest : Bytes), MembersText rules w obj →
    w.length < fuel →
      parseMembers fuel before (w ++ 0x7d :: rest) = .ok (.object (before ++ obj), rest)

section Complete

variable (strict : rules.unpaired = false) {fuel : Nat}

include strict in
theorem value_complete (later : CompleteAt rules fuel) {w : Bytes} {v : JVal} (rest : Bytes)
    (value : ValueText rules w v) (room : w.length ≤ fuel + 1)
    (stops : StopsAt continuesNumber rest) :
    parseValue (fuel + 1) (w ++ rest) = .ok (v, rest) := by
  cases value with
  | null => rfl
  | true_ => rfl
  | false_ => rfl
  | number isNumber => exact parseValue_numberText fuel isNumber stops
  | @string body s chars =>
      obtain ⟨owned, read⟩ := parseString_complete strict chars rest
      rw [List.cons_append, List.append_assoc, List.singleton_append, parseValue_quote, read]
  | emptyArray ws =>
      rw [List.cons_append, List.append_assoc, List.singleton_append, parseValue_bracket,
        skipWs_ink ws rfl, eat_cons]
  | emptyObject ws =>
      rw [List.cons_append, List.append_assoc, List.singleton_append, parseValue_brace,
        skipWs_ink ws rfl, eat_cons]
  | array elements =>
      obtain ⟨a, c, more, rfl, ws, ink, other, elements⟩ := elements.start
      have read := later.elements [] rest elements (by simp at room ⊢; omega)
      rw [List.cons_append, List.append_assoc, List.singleton_append, parseValue_bracket,
        List.append_assoc, List.cons_append, skipWs_ink ws ink, eat_of_ne other]
      exact read
  | object members =>
      obtain ⟨a, more, rfl, ws, members⟩ := members.start
      have read := later.members [] rest members (by simp at room ⊢; omega)
      rw [List.cons_append, List.append_assoc, List.singleton_append, parseValue_brace,
        List.append_assoc, List.cons_append, skipWs_ink ws rfl, eat_of_ne (by decide)]
      exact read

/-- A value is read behind white space. -/
theorem CompleteAt.spaced (later : CompleteAt rules fuel) {a w : Bytes} {v : JVal} (rest : Bytes)
    (ws : Ws a) (value : ValueText rules w v) (room : w.length ≤ fuel)
    (stops : StopsAt continuesNumber rest) :
    parseValue fuel (a ++ (w ++ rest)) = .ok (v, rest) := by
  have read := later.value rest value room stops
  obtain ⟨c, more, rfl, ink, -⟩ := value.head
  rw [List.cons_append] at read ⊢
  rw [parseValue_ws ws ink]
  exact read

theorem elements_complete (later : CompleteAt rules fuel) {w : Bytes} {arr : List JVal}
    (before : List JVal) (rest : Bytes) (elements : ElementsText rules w arr)
    (room : w.length < fuel + 1) :
    parseElements (fuel + 1) before (w ++ 0x5d :: rest) = .ok (.array (before ++ arr), rest) := by
  cases elements with
  | @last a w b v ws value wsAfter =>
      have read := later.spaced (b ++ 0x5d :: rest) ws value (by simp at room; omega)
        (stops_ws wsAfter (stopsAt_cons rfl _))
      have text : (a ++ (w ++ b)) ++ 0x5d :: rest = a ++ (w ++ (b ++ 0x5d :: rest)) := by simp
      unfold parseElements
      rw [text, read]
      dsimp only
      rw [skipWs_ink wsAfter rfl, eat_cons]
  | @more a w b others v arr ws value wsAfter elements =>
      have read := later.spaced (b ++ 0x2c :: (others ++ 0x5d :: rest)) ws value
        (by simp at room; omega) (stops_ws wsAfter (stopsAt_cons rfl _))
      have text : (a ++ (w ++ (b ++ 0x2c :: others))) ++ 0x5d :: rest =
          a ++ (w ++ (b ++ 0x2c :: (others ++ 0x5d :: rest))) := by simp
      have next := later.elements (before ++ [v]) rest elements (by simp at room; omega)
      conv_lhs => unfold parseElements
      rw [text, read]
      dsimp only
      rw [skipWs_ink wsAfter rfl, eat_of_ne (by decide), eat_cons]
      dsimp only
      rw [next, List.append_assoc]
      rfl

theorem members_complete (later : CompleteAt rules fuel) {w : Bytes} {obj : List (Bytes × JVal)}
    (before : List (Bytes × JVal)) (rest : Bytes) (members : MembersText rules w obj)
    (room : w.length < fuel + 1) :
    parseMembers (fuel + 1) before (w ++ 0x7d :: rest) = .ok (.object (before ++ obj), rest) := by
  cases members with
  | @last a key b c w d v ws plain wsName wsColon value wsAfter =>
      have read := later.spaced (d ++ 0x7d :: rest) wsColon value (by simp at room; omega)
        (stops_ws wsAfter (stopsAt_cons rfl _))
      have text : (a ++ 0x22 :: (key ++ 0x22 :: (b ++ 0x3a :: (c ++ (w ++ d))))) ++ 0x7d :: rest =
          a ++ 0x22 :: (key ++ 0x22 :: (b ++ 0x3a :: (c ++ (w ++ (d ++ 0x7d :: rest))))) := by simp
      unfold parseMembers
      rw [text, skipWs_ink ws rfl, parseString_plain plain]
      dsimp only
      rw [if_neg (not_not.mpr rfl), skipWs_ink wsName rfl, eat_cons]
      dsimp only
      rw [read]
      dsimp only
      rw [skipWs_ink wsAfter rfl, eat_cons]
  | @more a key b c w d others v obj ws plain wsName wsColon value wsAfter members =>
      have read := later.spaced (d ++ 0x2c :: (others ++ 0x7d :: rest)) wsColon value
        (by simp at room; omega) (stops_ws wsAfter (stopsAt_cons rfl _))
      have text : (a ++ 0x22 :: (key ++ 0x22 :: (b ++ 0x3a :: (c ++ (w ++ (d ++ 0x2c :: others)))))) ++
          0x7d :: rest = a ++ 0x22 :: (key ++ 0x22 ::
            (b ++ 0x3a :: (c ++ (w ++ (d ++ 0x2c :: (others ++ 0x7d :: rest)))))) := by simp
      have next := later.members (before ++ [(key, v)]) rest members (by simp at room; omega)
      conv_lhs => unfold parseMembers
      rw [text, skipWs_ink ws rfl, parseString_plain plain]
      dsimp only
      rw [if_neg (not_not.mpr rfl), skipWs_ink wsName rfl, eat_cons]
      dsimp only
      rw [read]
      dsimp only
      rw [skipWs_ink wsAfter rfl, eat_of_ne (by decide), eat_cons]
      dsimp only
      rw [next, List.append_assoc]
      rfl

include strict in
/-- **What is of the grammar is read**, by induction on the fuel. -/
theorem completeAt (fuel : Nat) : CompleteAt rules fuel := by
  induction fuel with
  | zero =>
      constructor
      · intro w v rest value room _
        obtain ⟨c, more, rfl, -, -⟩ := value.head
        exact absurd room (Nat.not_succ_le_zero _)
      · intro w arr before rest _ room
        exact absurd room (Nat.not_lt_zero _)
      · intro w obj before rest _ room
        exact absurd room (Nat.not_lt_zero _)
  | succ fuel inductionHypothesis =>
      exact ⟨fun rest => value_complete strict inductionHypothesis rest,
        elements_complete inductionHypothesis, members_complete inductionHypothesis⟩

end Complete

/-! ## The whole text -/

/-- The grammar of the reader: the digits of a number may begin with zeros. -/
def anyDigits : Rules := ⟨true, false⟩

/-- The same with units that are no UTF-16, for which it has no meaning. -/
def anyUnits : Rules := ⟨true, true⟩

theorem parseJson_complete (strict : rules.unpaired = false) {s : Bytes} {v : JVal}
    (text : JsonText rules s v) : parseJson s = .ok v := by
  obtain ⟨a, w, b, rfl, ws, value, wsAfter⟩ := text
  have ends : StopsAt continuesNumber b := by
    have nothing : StopsAt continuesNumber [] := fun _ impossible => by cases impossible
    have stops := stops_ws wsAfter nothing
    rwa [List.append_nil] at stops
  have read := (completeAt strict (2 * (a ++ (w ++ b)).length + 2)).spaced b ws value
    (by simp; omega) ends
  have rest : skipWs b = [] := by
    have nothing : StopsAt isWs [] := fun _ impossible => by cases impossible
    have skipped := skipWs_append wsAfter nothing
    rwa [List.append_nil] at skipped
  unfold parseJson
  rw [read]
  dsimp only
  rw [if_pos rest]

theorem parseJson_sound (zeros : rules.leadingZeros = true) (units : rules.unpaired = true)
    {s : Bytes} {v : JVal} (read : parseJson s = .ok v) : JsonText rules s v := by
  unfold parseJson at read
  cases value : parseValue (2 * s.length + 2) s with
  | error e =>
      rw [value] at read
      cases read
  | ok found =>
      obtain ⟨v', rest⟩ := found
      rw [value] at read
      dsimp only at read
      by_cases ends : skipWs rest = []
      · rw [if_pos ends] at read
        obtain rfl := Except.ok.inj read
        obtain ⟨a, w, split, ws, isValue⟩ := (soundAt zeros units _).value value
        obtain ⟨b, wsAfter, after⟩ := exists_skipWs rest
        rw [ends, List.append_nil] at after
        exact ⟨a, w, rest, split, ws, isValue, after ▸ wsAfter⟩
      · rw [if_neg ends] at read
        cases read

/-- **The reader and the grammar.**  Every text is accepted with its value, where the digits of a
number may begin with zeros; what is accepted is such a text, up to units that are no UTF-16; and
on a string without escapes both paths give the string. -/
theorem parseJson_text :
    (∀ s v, JsonText anyDigits s v → parseJson s = .ok v) ∧
    (∀ s v, parseJson s = .ok v → JsonText anyUnits s v) ∧
    (∀ body rest, Plain body →
      parseString (0x22 :: (body ++ 0x22 :: rest)) = .ok (body, [], rest) ∧
        parseEscaped (body.length + 1) [] (body ++ 0x22 :: rest) = .ok (body, rest)) :=
  ⟨fun _ _ text => parseJson_complete rfl text, fun _ _ read => parseJson_sound rfl rfl read,
    fun _ rest plain => ⟨parseString_plain plain rest, parseEscaped_plain plain rest⟩⟩

/-- By the published grammar no number has a digit behind a zero it begins with. -/
theorem not_numberText_zero_one {q : Rat} : ¬NumberText rfc8259 [0x30, 0x31] q := by
  intro number
  generalize text : ([0x30, 0x31] : Bytes) = w at number
  obtain ⟨negative, ⟨⟨some_, -⟩, form⟩, isFraction, isExponent⟩ := number
  cases negative with
  | true => cases text
  | false =>
      obtain ⟨d, more, rfl⟩ := List.exists_cons_of_ne_nil some_
      obtain ⟨rfl, behind⟩ := List.cons.inj text
      have one : more = [] := by
        rcases form with impossible | zero | other
        · cases impossible
        · exact (List.cons.inj zero).2
        · exact absurd rfl other
      subst one
      replace behind := behind.trans (List.nil_append _)
      cases isFraction with
      | digits => cases behind
      | absent =>
          cases isExponent with
          | absent => cases behind
          | unsigned mark =>
              have first := (List.cons.inj behind).1
              rcases mark with rfl | rfl <;> exact absurd first (by decide)
          | plus mark =>
              have first := (List.cons.inj behind).1
              rcases mark with rfl | rfl <;> exact absurd first (by decide)
          | minus mark =>
              have first := (List.cons.inj behind).1
              rcases mark with rfl | rfl <;> exact absurd first (by decide)

/-- A number with a leading zero is accepted, but is no text of the published grammar. -/
theorem parseJson_leading_zero :
    (∃ v, parseJson (str "01") = .ok v) ∧ ¬∃ v, JsonText rfc8259 (str "01") v := by
  constructor
  · have digits : ∀ b ∈ ([0x30, 0x31] : Bytes), isDigit b = true :=
      List.forall_mem_cons.mpr ⟨rfl, List.forall_mem_singleton.mpr rfl⟩
    have number : NumberText anyDigits [0x30, 0x31] (fromChars false [0x30, 0x31] [] false []) :=
      .mk false ⟨⟨List.cons_ne_nil _ _, digits⟩, .inl rfl⟩ .absent .absent
    exact ⟨_, parseJson_complete rfl ⟨[], _, [], rfl, Ws.nil, .number number, Ws.nil⟩⟩
  · rintro ⟨v, a, w, b, split, ws, value, wsAfter⟩
    have text : ([0x30, 0x31] : Bytes) = a ++ (w ++ b) := split
    have front : a = [] := by
      cases a with
      | nil => rfl
      | cons c more =>
          have white := ws c List.mem_cons_self
          rw [← (List.cons.inj text).1] at white
          cases white
    rw [front, List.nil_append] at text
    -- the only value that begins with a zero is a number, and it is both bytes
    have begins : w.head? = some 0x30 := by
      cases w with
      | nil =>
          have white := wsAfter 0x30 (by rw [← show [0x30, 0x31] = b from text]; exact List.mem_cons_self)
          cases white
      | cons c more =>
          rw [← (List.cons.inj text).1]
          rfl
    have number : ∃ q, NumberText rfc8259 w q := by
      cases value with
      | number number => exact ⟨_, number⟩
      | null | true_ | false_ | string | emptyArray | array | emptyObject | object => cases begins
    have back : b = [] := by
      cases b with
      | nil => rfl
      | cons c more =>
          have last : (0x31 : UInt8) ∈ c :: more := by
            cases w with
            | nil => cases begins
            | cons d tail =>
                have behind : [0x31] = tail ++ (c :: more) := (List.cons.inj text).2
                have length := congrArg List.length behind
                have none_ : tail = [] := by
                  apply List.eq_nil_of_length_eq_zero
                  simp only [List.length_cons, List.length_nil, List.length_append] at length
                  omega
                rw [none_, List.nil_append] at behind
                rw [← behind]
                exact List.mem_cons_self
          have white := wsAfter _ last
          cases white
    rw [back, List.append_nil] at text
    obtain ⟨q, number⟩ := number
    rw [← text] at number
    exact not_numberText_zero_one number

end Opencodepp.Util
