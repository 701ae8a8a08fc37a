import Opencodepp.Util.Json

/-!
# What is written is read

A value that was written is read back with the same shape, the same strings and the same names;
only its numbers are those that the seventeen digits denote.  The members must have names
without escapes, as the reader refuses all others.  `parseJson_toJson` is put together from the
round trips of strings, numbers, elements and members, each in front of an arbitrary rest.
-/

set_option autoImplicit false

namespace Opencodepp.Util

open Opencodepp.Core
open Opencodepp.Library

/-! ## Runs of bytes -/

/-- The rest does not go on with a byte of the kind. -/
def StopsAt (p : UInt8 → Bool) (rest : Bytes) : Prop := ∀ b, rest.head? = some b → p b = false

theorem takeWhile_run {p : UInt8 → Bool} {run rest : Bytes} (all : ∀ b ∈ run, p b = true)
    (stops : StopsAt p rest) : (run ++ rest).takeWhile p = run := by
  rw [List.takeWhile_append_of_pos all]
  cases rest with
  | nil => exact List.append_nil run
  | cons b more => rw [List.takeWhile_cons_of_neg (by simp [stops b rfl]), List.append_nil]

theorem dropWhile_run {p : UInt8 → Bool} {run rest : Bytes} (all : ∀ b ∈ run, p b = true)
    (stops : StopsAt p rest) : (run ++ rest).dropWhile p = rest := by
  rw [List.dropWhile_append_of_pos all]
  cases rest with
  | nil => rfl
  | cons b more => exact List.dropWhile_cons_of_neg (by simp [stops b rfl])

theorem eat_cons (b : UInt8) (rest : Bytes) : eat b (b :: rest) = some rest := if_pos rfl

theorem eat_of_ne {b c : UInt8} (other : c ≠ b) (rest : Bytes) : eat b (c :: rest) = none :=
  if_neg other

/-! ## Strings -/

/-- A string the fast path can read. -/
def Plain (s : Bytes) : Prop := ∀ b ∈ s, isPlain b = true

instance : DecidablePred Plain := fun s => List.decidableBAll (fun b => isPlain b = true) s

theorem writeByte_of_plain {b : UInt8} (plain : isPlain b = true) : writeByte b = [b] := by
  unfold isPlain at plain
  simp only [Bool.and_eq_true, bne_iff_ne, ne_eq, decide_eq_true_eq] at plain
  obtain ⟨⟨quote, slash⟩, printable⟩ := plain
  have above : ¬b < 0x20 := UInt8.not_lt.mpr printable
  have apart : ∀ c : UInt8, c < 0x20 → b ≠ c := fun c small same => above (same ▸ small)
  unfold writeByte
  rw [if_neg quote, if_neg slash, if_neg (apart _ (by decide)), if_neg (apart _ (by decide)),
    if_neg (apart _ (by decide)), if_neg (apart _ (by decide)), if_neg (apart _ (by decide)),
    if_neg above]

theorem flatMap_writeByte_of_plain {s : Bytes} (plain : Plain s) : s.flatMap writeByte = s := by
  induction s with
  | nil => rfl
  | cons b rest inductionHypothesis =>
      obtain ⟨first, others⟩ := List.forall_mem_cons.mp plain
      rw [List.flatMap_cons, writeByte_of_plain first, inductionHypothesis others]
      rfl

theorem hexQuad_append (a b c d : UInt8) (rest : Bytes) :
    hexQuad (a :: b :: c :: d :: rest) =
      (hexQuad [a, b, c, d]).map fun read => (read.1, rest) := by
  unfold hexQuad
  dsimp only
  cases hexDigit a <;> cases hexDigit b <;> cases hexDigit c <;> cases hexDigit d <;> rfl

theorem hexQuad_control : ∀ n < 32,
    hexQuad [0x30, 0x30, hexChar (n / 16), hexChar (n % 16)] = some (UInt32.ofNat n, []) := by
  decide +kernel

theorem utf8Encode_control : ∀ n < 32, utf8Encode (UInt32.ofNat n) = [UInt8.ofNat n] := by
  decide +kernel

/-- The escape of a control byte is decoded to the byte. -/
theorem unicodeEscape_control {n : Nat} (control : n < 32) (rest : Bytes) :
    unicodeEscape (0x30 :: 0x30 :: hexChar (n / 16) :: hexChar (n % 16) :: rest) =
      some (UInt32.ofNat n, rest) := by
  have low : ¬((0xD800 ≤ UInt32.ofNat n && UInt32.ofNat n ≤ 0xDBFF) = true) := by
    have small : (UInt32.ofNat n).toNat = n := by
      rw [UInt32.toNat_ofNat']
      omega
    intro both
    have high := of_decide_eq_true ((Bool.and_eq_true ..).mp both).1
    rw [UInt32.le_iff_toNat_le, small] at high
    exact absurd high (by simp; omega)
  unfold unicodeEscape
  rw [hexQuad_append, hexQuad_control n control]
  dsimp only [Option.map_some]
  rw [if_neg low]

theorem parseEscaped_step_unit {w rest : Bytes} {cp : UInt32}
    (escape : unicodeEscape w = some (cp, rest)) (fuel : Nat) (owned : Bytes) :
    parseEscaped (fuel + 1) owned (0x5c :: 0x75 :: w) =
      parseEscaped fuel (owned ++ utf8Encode cp) rest := by
  rw [parseEscaped, if_neg (by decide), if_pos rfl, if_pos (by decide), escape]

/-- The slow path decodes one written byte in one step. -/
theorem parseEscaped_writeByte (fuel : Nat) (owned rest : Bytes) (b : UInt8) :
    parseEscaped (fuel + 1) owned (writeByte b ++ rest) =
      parseEscaped fuel (owned ++ [b]) rest := by
  unfold writeByte
  split_ifs with quote slash backspace feed line return_ tab control
  · subst quote
    rfl
  · subst slash
    rfl
  · subst backspace
    rfl
  · subst feed
    rfl
  · subst line
    rfl
  · subst return_
    rfl
  · subst tab
    rfl
  · have small : b.toNat < 32 := UInt8.lt_iff_toNat_lt.mp control
    have decoded := unicodeEscape_control small rest
    have went := parseEscaped_step_unit decoded fuel owned
    rw [utf8Encode_control _ small, UInt8.ofNat_toNat] at went
    exact went
  · show (if b = 0x22 then _ else if b = 0x5c then _ else if b < 0x20 then _
      else parseEscaped fuel (owned ++ [b]) rest) = _
    rw [if_neg quote, if_neg slash, if_neg control]

theorem parseEscaped_written (s : Bytes) : ∀ (fuel : Nat) (owned rest : Bytes), s.length < fuel →
    parseEscaped fuel owned (s.flatMap writeByte ++ 0x22 :: rest) = .ok (owned ++ s, rest) := by
  induction s with
  | nil =>
      intro fuel owned rest room
      obtain ⟨fuel, rfl⟩ := Nat.exists_eq_add_of_lt room
      rw [List.append_nil]
      rfl
  | cons b more inductionHypothesis =>
      intro fuel owned rest room
      obtain ⟨fuel, rfl⟩ : ∃ f, fuel = f + 1 := ⟨fuel - 1, by simp at room; omega⟩
      rw [List.flatMap_cons, List.append_assoc, parseEscaped_writeByte,
        inductionHypothesis fuel _ rest (by simp at room; omega), List.append_assoc]
      rfl

theorem length_le_written (s : Bytes) : s.length ≤ (s.flatMap writeByte).length := by
  induction s with
  | nil => exact Nat.le_refl 0
  | cons b rest inductionHypothesis =>
      have some_ : 1 ≤ (writeByte b).length := by
        unfold writeByte
        split_ifs <;> simp
      rw [List.flatMap_cons, List.length_append, List.length_cons]
      omega

/-- A written string that is not plain has a backslash where its plain start ends. -/
theorem written_of_not_plain {s : Bytes} (escaped : ¬Plain s) :
    ∃ plain more, s.flatMap writeByte = plain ++ 0x5c :: more ∧ Plain plain := by
  induction s with
  | nil => exact absurd (fun b member => absurd member List.not_mem_nil) escaped
  | cons b rest inductionHypothesis =>
      cases first : isPlain b with
      | true =>
          have later : ¬Plain rest := fun all =>
            escaped (List.forall_mem_cons.mpr ⟨first, all⟩)
          obtain ⟨plain, more, written, all⟩ := inductionHypothesis later
          refine ⟨b :: plain, more, ?_, List.forall_mem_cons.mpr ⟨first, all⟩⟩
          rw [List.flatMap_cons, writeByte_of_plain first, written]
          rfl
      | false =>
          have slash : ∃ more, writeByte b = 0x5c :: more := by
            unfold writeByte
            split_ifs with quote slash backspace feed line return_ tab control
            iterate 8 exact ⟨_, rfl⟩
            unfold isPlain at first
            have printable : (0x20 : UInt8) ≤ b := UInt8.not_lt.mp control
            simp [quote, slash, printable] at first
          obtain ⟨more, written⟩ := slash
          refine ⟨[], more ++ rest.flatMap writeByte, ?_, fun b member =>
            absurd member List.not_mem_nil⟩
          rw [List.flatMap_cons, written]
          rfl

theorem writeEscaped_append (s rest : Bytes) :
    writeEscaped s ++ rest = 0x22 :: (s.flatMap writeByte ++ 0x22 :: rest) := by
  simp [writeEscaped]

/-- **A written string is read back**; what its decoded form needs a buffer for is what is not
plain. -/
theorem parseString_writeEscaped (s rest : Bytes) :
    ∃ owned, parseString (writeEscaped s ++ rest) = .ok (s, owned, rest) ∧
      (Plain s → owned = []) := by
  unfold parseString
  rw [writeEscaped_append, eat_cons]
  dsimp only
  by_cases plain : Plain s
  · have stops : StopsAt isPlain (0x22 :: rest) := by
      rintro b first
      cases first
      rfl
    rw [flatMap_writeByte_of_plain plain, dropWhile_run plain stops, takeWhile_run plain stops,
      eat_cons]
    exact ⟨[], rfl, fun _ => rfl⟩
  · obtain ⟨start, more, written, all⟩ := written_of_not_plain plain
    have stops : StopsAt isPlain (0x5c :: (more ++ 0x22 :: rest)) := by
      rintro b first
      cases first
      rfl
    have past : (s.flatMap writeByte ++ 0x22 :: rest).dropWhile isPlain =
        0x5c :: (more ++ 0x22 :: rest) := by
      rw [written, List.append_assoc, List.cons_append]
      exact dropWhile_run all stops
    rw [past, eat_of_ne (by decide)]
    dsimp only
    rw [parseEscaped_written s _ [] rest (by
      have enough := length_le_written s
      rw [List.length_append]
      omega)]
    exact ⟨s, rfl, fun impossible => absurd impossible plain⟩

/-! ## Numbers -/

/-- A byte a number may go on with. -/
def continuesNumber (b : UInt8) : Bool :=
  isDigit b || b = 0x2e || b = ch 'e' || b = ch 'E'

/-- A number literal: its sign, its digits, and its exponent if it has one. -/
structure Numeral where
  negative : Bool
  whole : Bytes
  fraction : Bytes
  exponent : Option (Bool × Bytes)
  some_ : whole ≠ []
  wholeDigits : ∀ b ∈ whole, isDigit b = true
  fractionDigits : ∀ b ∈ fraction, isDigit b = true
  exponentDigits : ∀ e, exponent = some e → e.2 ≠ [] ∧ ∀ b ∈ e.2, isDigit b = true

namespace Numeral

def exponentText : Option (Bool × Bytes) → Bytes
  | none => []
  | some (negative, digits) => ch 'e' :: (if negative then 0x2d else 0x2b) :: digits

def text (n : Numeral) : Bytes :=
  (if n.negative then [0x2d] else []) ++ n.whole ++ withPoint n.fraction ++
    exponentText n.exponent

def value (n : Numeral) : Rat :=
  fromChars n.negative n.whole n.fraction ((n.exponent.map (·.1)).getD false)
    ((n.exponent.map (·.2)).getD [])

end Numeral

theorem StopsAt.mono {p q : UInt8 → Bool} {rest : Bytes} (stops : StopsAt p rest)
    (wider : ∀ b, p b = false → q b = false) : StopsAt q rest :=
  fun b first => wider b (stops b first)

theorem isDigit_of_stops {b : UInt8} (stops : continuesNumber b = false) : isDigit b = false := by
  unfold continuesNumber at stops
  simp only [Bool.or_eq_false_iff] at stops
  exact stops.1.1.1

theorem parseDigits_run {digits rest : Bytes} (some_ : digits ≠ [])
    (all : ∀ b ∈ digits, isDigit b = true) (stops : StopsAt isDigit rest) :
    parseDigits (digits ++ rest) = some (digits, rest) := by
  unfold parseDigits
  rw [takeWhile_run all stops, dropWhile_run all stops]
  cases digits with
  | nil => exact absurd rfl some_
  | cons b more => rfl

/-- The exponent of a literal. -/
theorem parseExponent_text (n : Numeral) {rest : Bytes} (stops : StopsAt continuesNumber rest) :
    parseExponent (Numeral.exponentText n.exponent ++ rest) =
      some ((n.exponent.map (·.1)).getD false, (n.exponent.map (·.2)).getD [], rest) := by
  have digits := n.exponentDigits
  have after : StopsAt isDigit rest := stops.mono fun _ => isDigit_of_stops
  cases form : n.exponent with
  | none =>
      cases rest with
      | nil => rfl
      | cons b more =>
          have other := stops b rfl
          unfold continuesNumber at other
          simp only [Bool.or_eq_false_iff, decide_eq_false_iff_not] at other
          show parseExponent (b :: more) = _
          unfold parseExponent
          simp [other.1.2, other.2]
  | some e =>
      obtain ⟨negative, written⟩ := e
      obtain ⟨some_, all⟩ := digits _ form
      have read := parseDigits_run some_ all after
      cases negative with
      | false =>
          show (parseDigits (written ++ rest)).map _ = _
          rw [read]
          rfl
      | true =>
          show (parseDigits (written ++ rest)).map _ = _
          rw [read]
          rfl

theorem exponentText_stops (n : Numeral) {rest : Bytes} (stops : StopsAt continuesNumber rest) :
    StopsAt (fun b => isDigit b || b = 0x2e) (Numeral.exponentText n.exponent ++ rest) := by
  cases n.exponent with
  | none =>
      refine stops.mono fun b other => ?_
      unfold continuesNumber at other
      simp only [Bool.or_eq_false_iff] at other ⊢
      exact other.1.1
  | some e =>
      rintro b first
      cases first
      decide

theorem parseFraction_text (n : Numeral) {rest : Bytes}
    (stops : StopsAt (fun b => isDigit b || b = 0x2e) rest) :
    parseFraction (withPoint n.fraction ++ rest) = some (n.fraction, rest) := by
  have all := n.fractionDigits
  cases form : n.fraction with
  | nil =>
      show parseFraction rest = _
      unfold parseFraction
      have none_ : eat 0x2e rest = none := by
        cases rest with
        | nil => rfl
        | cons b more =>
            have other := stops b rfl
            simp only [Bool.or_eq_false_iff, decide_eq_false_iff_not] at other
            exact eat_of_ne other.2 more
      rw [none_]
  | cons d more =>
      rw [form] at all
      have after : StopsAt isDigit rest := stops.mono fun b other => by
        simp only [Bool.or_eq_false_iff] at other
        exact other.1
      show parseDigits ((d :: more) ++ rest) = _
      exact parseDigits_run (List.cons_ne_nil _ _) all after

/-- A literal is read to its end. -/
theorem parseNumber_text (n : Numeral) {rest : Bytes} (stops : StopsAt continuesNumber rest) :
    parseNumber (n.text ++ rest) = some (.number n.value, rest) := by
  have exponent := parseExponent_text n stops
  have afterFraction := exponentText_stops n stops
  have fraction := parseFraction_text n afterFraction
  have afterWhole : StopsAt isDigit
      (withPoint n.fraction ++ (Numeral.exponentText n.exponent ++ rest)) := by
    cases form : n.fraction with
    | nil =>
        exact afterFraction.mono fun b other => by
          simp only [Bool.or_eq_false_iff] at other
          exact other.1
    | cons d more =>
        rintro b first
        cases first
        decide
  have whole := parseDigits_run n.some_ n.wholeDigits afterWhole
  have sign : eat 0x2d (n.text ++ rest) = if n.negative then some (n.whole ++
      (withPoint n.fraction ++ (Numeral.exponentText n.exponent ++ rest))) else none := by
    unfold Numeral.text
    cases n.negative with
    | true =>
        rw [if_pos rfl, if_pos rfl]
        simp [eat_cons]
    | false =>
        obtain ⟨d, more, form⟩ := List.exists_cons_of_ne_nil n.some_
        have digit := n.wholeDigits d (form ▸ List.mem_cons_self)
        have other : d ≠ 0x2d := by
          rintro rfl
          cases digit
        rw [form]
        exact eat_of_ne other _
  have unsigned : (eat 0x2d (n.text ++ rest)).getD (n.text ++ rest) = n.whole ++
      (withPoint n.fraction ++ (Numeral.exponentText n.exponent ++ rest)) := by
    rw [sign]
    cases form : n.negative with
    | true => rfl
    | false =>
        unfold Numeral.text
        simp [form]
  have signed : (eat 0x2d (n.text ++ rest)).isSome = n.negative := by
    rw [sign]
    cases n.negative <;> rfl
  unfold parseNumber
  dsimp only
  rw [unsigned, whole]
  show (parseFraction _).bind _ = _
  rw [fraction]
  show (parseExponent _).bind _ = _
  rw [exponent, signed]
  rfl

/-! ### Printed doubles -/

theorem isDigit_of_mem_stripZeros {digits : Bytes} (all : ∀ b ∈ digits, isDigit b = true)
    {b : UInt8} (member : b ∈ stripZeros digits) : isDigit b = true := by
  unfold stripZeros at member
  have inside := (List.dropWhile_sublist _).mem (List.mem_reverse.mp member)
  exact all b (List.mem_reverse.mp inside)

theorem all_digits_decimal (n : Nat) : ∀ b ∈ decimal n, isDigit b = true :=
  fun _ member => isDigit_of_mem_decimal member

/-- The literal of an exponent that is printed apart. -/
theorem exists_exponent (e : Int) : ∃ written : Bool × Bytes,
    Numeral.exponentText (some written) = printExponent e ∧
      written.2 ≠ [] ∧ ∀ b ∈ written.2, isDigit b = true := by
  refine ⟨(decide (e < 0), if (decimal e.natAbs).length < 2 then 0x30 :: decimal e.natAbs
    else decimal e.natAbs), ?_, ?_, ?_⟩
  · unfold Numeral.exponentText printExponent
    by_cases negative : e < 0
    · simp [negative]
    · simp [negative]
  · dsimp only
    split
    · exact List.cons_ne_nil _ _
    · exact decimal_ne_nil _
  · dsimp only
    split
    · exact List.forall_mem_cons.mpr ⟨rfl, all_digits_decimal _⟩
    · exact all_digits_decimal _

/-- A double is printed as a literal. -/
theorem exists_numeral (q : Rat) : ∃ n : Numeral, n.text = formatDouble q := by
  unfold formatDouble
  split
  · exact ⟨⟨false, [0x30], [], none, List.cons_ne_nil _ _,
      List.forall_mem_singleton.mpr rfl, by simp, by simp⟩, rfl⟩
  · generalize significant q.num.natAbs q.den = parts
    obtain ⟨mantissa, exponent⟩ := parts
    have some_ := decimal_ne_nil mantissa
    have all := all_digits_decimal mantissa
    obtain ⟨negative, sign⟩ : ∃ negative : Bool,
        (if negative then [0x2d] else [] : Bytes) = if q < 0 then [0x2d] else [] :=
      ⟨decide (q < 0), by by_cases below : q < 0 <;> simp [below]⟩
    have taken : ∀ k, ∀ b ∈ (decimal mantissa).take k, isDigit b = true :=
      fun k b member => all b (List.mem_of_mem_take member)
    have dropped : ∀ k, ∀ b ∈ stripZeros ((decimal mantissa).drop k), isDigit b = true :=
      fun k b member =>
        isDigit_of_mem_stripZeros (fun b member => all b (List.mem_of_mem_drop member)) member
    have front : ∀ k, (decimal mantissa).take (k + 1) ≠ [] := by
      intro k none_
      rcases List.take_eq_nil_iff.mp none_ with impossible | empty
      · exact absurd impossible (Nat.succ_ne_zero k)
      · exact some_ empty
    dsimp only
    rw [← sign]
    by_cases apart : (decide (exponent < -4) || decide (17 ≤ exponent)) = true
    · rw [if_pos apart]
      obtain ⟨written, text, nonempty, digits⟩ := exists_exponent exponent
      refine ⟨⟨negative, (decimal mantissa).take 1, stripZeros ((decimal mantissa).drop 1),
        some written, front 0, taken 1, dropped 1, ?_⟩, ?_⟩
      · rintro e same
        cases same
        exact ⟨nonempty, digits⟩
      · unfold Numeral.text
        rw [text]
    · rw [if_neg apart]
      by_cases long : 0 ≤ exponent
      · rw [if_pos long]
        refine ⟨⟨negative, (decimal mantissa).take (exponent.toNat + 1),
          stripZeros ((decimal mantissa).drop (exponent.toNat + 1)), none, front _, taken _,
          dropped _, by simp⟩, ?_⟩
        exact List.append_nil _
      · rw [if_neg long]
        refine ⟨⟨negative, [0x30],
          stripZeros (List.replicate ((-exponent).toNat - 1) 0x30 ++ decimal mantissa), none,
          List.cons_ne_nil _ _, List.forall_mem_singleton.mpr rfl, fun b member => ?_, by simp⟩,
          ?_⟩
        · refine isDigit_of_mem_stripZeros (fun b inside => ?_) member
          rcases List.mem_append.mp inside with zero | digit
          · rw [List.eq_of_mem_replicate zero]
            rfl
          · exact all b digit
        · exact List.append_nil _

/-- The number that the digits of a printed double denote. -/
def rereadNumber (q : Rat) : Rat :=
  match parseNumber (formatDouble q) with
  | some (.number r, _) => r
  | _ => q

/-- **A printed double is read to its end.** -/
theorem parseNumber_formatDouble (q : Rat) {rest : Bytes} (stops : StopsAt continuesNumber rest) :
    parseNumber (formatDouble q ++ rest) = some (.number (rereadNumber q), rest) := by
  obtain ⟨n, text⟩ := exists_numeral q
  have alone : parseNumber (n.text ++ []) = some (.number n.value, []) :=
    parseNumber_text n fun _ impossible => by cases impossible
  unfold rereadNumber
  rw [← text, parseNumber_text n stops]
  rw [List.append_nil] at alone
  rw [alone]

/-! ## Values -/

mutual

/-- A value as it comes back. -/
def JVal.reread : JVal → JVal
  | .null => .null
  | .boolean b => .boolean b
  | .number q => .number (rereadNumber q)
  | .string s => .string s
  | .array arr => .array (rereadElements arr)
  | .object obj => .object (rereadMembers obj)

def rereadElements : List JVal → List JVal
  | [] => []
  | v :: rest => v.reread :: rereadElements rest

def rereadMembers : List (Bytes × JVal) → List (Bytes × JVal)
  | [] => []
  | (key, v) :: rest => (key, v.reread) :: rereadMembers rest

end

mutual

/-- All names of members can be read. -/
def JVal.PlainKeys : JVal → Prop
  | .array arr => plainElements arr
  | .object obj => plainMembers obj
  | _ => True

def plainElements : List JVal → Prop
  | [] => True
  | v :: rest => v.PlainKeys ∧ plainElements rest

def plainMembers : List (Bytes × JVal) → Prop
  | [] => True
  | (key, v) :: rest => Plain key ∧ v.PlainKeys ∧ plainMembers rest

end

mutual

/-- All numbers are doubles that come back from their seventeen digits. -/
def JVal.Restored : JVal → Prop
  | .number q => rereadNumber q = q
  | .array arr => restoredElements arr
  | .object obj => restoredMembers obj
  | _ => True

def restoredElements : List JVal → Prop
  | [] => True
  | v :: rest => v.Restored ∧ restoredElements rest

def restoredMembers : List (Bytes × JVal) → Prop
  | [] => True
  | (_, v) :: rest => v.Restored ∧ restoredMembers rest

end

theorem plainElements_of_forall {arr : List JVal} (plain : ∀ v ∈ arr, v.PlainKeys) :
    plainElements arr := by
  induction arr with
  | nil => trivial
  | cons v rest inductionHypothesis =>
      obtain ⟨first, others⟩ := List.forall_mem_cons.mp plain
      exact ⟨first, inductionHypothesis others⟩

theorem restoredElements_of_forall {arr : List JVal} (restored : ∀ v ∈ arr, v.Restored) :
    restoredElements arr := by
  induction arr with
  | nil => trivial
  | cons v rest inductionHypothesis =>
      obtain ⟨first, others⟩ := List.forall_mem_cons.mp restored
      exact ⟨first, inductionHypothesis others⟩

mutual

/-- A value whose numbers come back comes back. -/
theorem JVal.reread_of_restored : ∀ v : JVal, v.Restored → v.reread = v
  | .null, _ => rfl
  | .boolean _, _ => rfl
  | .number _, restored => congrArg JVal.number restored
  | .string _, _ => rfl
  | .array arr, restored => congrArg JVal.array (rereadElements_of_restored arr restored)
  | .object obj, restored => congrArg JVal.object (rereadMembers_of_restored obj restored)

theorem rereadElements_of_restored : ∀ arr : List JVal, restoredElements arr →
    rereadElements arr = arr
  | [], _ => rfl
  | v :: rest, restored => by
      show v.reread :: rereadElements rest = _
      rw [v.reread_of_restored restored.1, rereadElements_of_restored rest restored.2]

theorem rereadMembers_of_restored : ∀ obj : List (Bytes × JVal), restoredMembers obj →
    rereadMembers obj = obj
  | [], _ => rfl
  | (key, v) :: rest, restored => by
      show (key, v.reread) :: rereadMembers rest = _
      rw [v.reread_of_restored restored.1, rereadMembers_of_restored rest restored.2]

end

theorem skipWs_cons {c : UInt8} (ink : isWs c = false) (rest : Bytes) :
    skipWs (c :: rest) = c :: rest :=
  List.dropWhile_cons_of_neg (by simp [ink])

/-- The first byte of a printed double: a digit or a sign. -/
theorem head_formatDouble (q : Rat) :
    ∃ c more, formatDouble q = c :: more ∧ (isDigit c = true ∨ c = 0x2d) := by
  obtain ⟨n, text⟩ := exists_numeral q
  obtain ⟨d, more, form⟩ := List.exists_cons_of_ne_nil n.some_
  have digit := n.wholeDigits d (form ▸ List.mem_cons_self)
  rw [← text]
  unfold Numeral.text
  rw [form]
  cases n.negative with
  | false => exact ⟨d, _, rfl, .inl digit⟩
  | true => exact ⟨0x2d, _, rfl, .inr rfl⟩

/-- A digit or a sign is none of the bytes with which another value begins. -/
theorem number_head {c : UInt8} (head : isDigit c = true ∨ c = 0x2d) :
    isWs c = false ∧ c ≠ 0x5d ∧ c ≠ 0x7b ∧ c ≠ 0x5b ∧ c ≠ 0x22 ∧ c ≠ ch 't' ∧ c ≠ ch 'f' ∧
      c ≠ ch 'n' := by
  have apart : ∀ b : UInt8, isDigit b = false → b ≠ 0x2d → c ≠ b := by
    rintro b other sign rfl
    rcases head with digit | minus
    · rw [other] at digit
      cases digit
    · exact sign minus
  refine ⟨?_, apart _ rfl (by decide), apart _ rfl (by decide), apart _ rfl (by decide),
    apart _ rfl (by decide), apart _ rfl (by decide), apart _ rfl (by decide),
    apart _ rfl (by decide)⟩
  unfold isWs
  simp only [Bool.or_eq_false_iff, beq_eq_false_iff_ne]
  exact ⟨⟨⟨apart _ rfl (by decide), apart _ rfl (by decide)⟩, apart _ rfl (by decide)⟩,
    apart _ rfl (by decide)⟩

theorem head_writeValue (v : JVal) :
    ∃ c more, writeValue v = c :: more ∧ isWs c = false ∧ c ≠ 0x5d := by
  cases v with
  | null => exact ⟨ch 'n', _, rfl, rfl, by decide⟩
  | boolean b =>
      cases b with
      | false => exact ⟨ch 'f', _, rfl, rfl, by decide⟩
      | true => exact ⟨ch 't', _, rfl, rfl, by decide⟩
  | number q =>
      obtain ⟨c, more, form, head⟩ := head_formatDouble q
      exact ⟨c, more, form, (number_head head).1, (number_head head).2.1⟩
  | string s => exact ⟨0x22, _, rfl, rfl, by decide⟩
  | array arr => exact ⟨0x5b, _, rfl, rfl, by decide⟩
  | object obj => exact ⟨0x7b, _, rfl, rfl, by decide⟩

theorem length_writeValue_pos (v : JVal) : 0 < (writeValue v).length := by
  obtain ⟨c, more, form, -, -⟩ := head_writeValue v
  rw [form]
  exact Nat.succ_pos _

theorem parseValue_number {fuel : Nat} (q : Rat) {rest : Bytes}
    (stops : StopsAt continuesNumber rest) :
    parseValue (fuel + 1) (formatDouble q ++ rest) = .ok (.number (rereadNumber q), rest) := by
  have read := parseNumber_formatDouble q stops
  obtain ⟨c, more, form, head⟩ := head_formatDouble q
  obtain ⟨ink, -, brace, bracket, quote, true_, false_, null_⟩ := number_head head
  rw [form] at read ⊢
  unfold parseValue
  rw [List.cons_append] at read ⊢
  rw [skipWs_cons ink]
  dsimp only
  rw [if_neg brace, if_neg bracket, if_neg quote, if_neg true_, if_neg false_, if_neg null_, read]

/-! ### The steps of the reader -/

theorem parseValue_quote (fuel : Nat) (rest : Bytes) :
    parseValue (fuel + 1) (0x22 :: rest) =
      match parseString (0x22 :: rest) with
      | .error e => .error e
      | .ok (s, _, rest) => .ok (.string s, rest) := rfl

theorem parseValue_bracket (fuel : Nat) (rest : Bytes) :
    parseValue (fuel + 1) (0x5b :: rest) =
      match eat 0x5d (skipWs rest) with
      | some rest => .ok (.array [], rest)
      | none => parseElements fuel [] (skipWs rest) := rfl

theorem parseValue_brace (fuel : Nat) (rest : Bytes) :
    parseValue (fuel + 1) (0x7b :: rest) =
      match eat 0x7d (skipWs rest) with
      | some rest => .ok (.object [], rest)
      | none => parseMembers fuel [] (skipWs rest) := rfl

/-- An element before the bracket is the last. -/
theorem parseElements_last {fuel : Nat} {before : List JVal} {input rest : Bytes} {v : JVal}
    (read : parseValue fuel input = .ok (v, 0x5d :: rest)) :
    parseElements (fuel + 1) before input = .ok (.array (before ++ [v]), rest) := by
  unfold parseElements
  rw [read]
  rfl

/-- After an element and a comma the array goes on. -/
theorem parseElements_comma {fuel : Nat} {before : List JVal} {input rest : Bytes} {v : JVal}
    (read : parseValue fuel input = .ok (v, 0x2c :: rest)) :
    parseElements (fuel + 1) before input = parseElements fuel (before ++ [v]) rest := by
  conv_lhs => unfold parseElements
  rw [read]
  rfl

/-- A member before the brace is the last. -/
theorem parseMembers_last {fuel : Nat} {before : List (Bytes × JVal)} {key text rest : Bytes}
    {v : JVal} (plain : Plain key) (read : parseValue fuel text = .ok (v, 0x7d :: rest)) :
    parseMembers (fuel + 1) before (writeEscaped key ++ 0x3a :: text) =
      .ok (.object (before ++ [(key, v)]), rest) := by
  obtain ⟨owned, name, fast⟩ := parseString_writeEscaped key (0x3a :: text)
  rw [fast plain, writeEscaped_append] at name
  unfold parseMembers
  rw [writeEscaped_append, skipWs_cons rfl, name]
  dsimp only
  rw [if_neg (not_not.mpr rfl), skipWs_cons rfl, eat_cons]
  dsimp only
  rw [read]
  rfl

/-- After a member and a comma the object goes on. -/
theorem parseMembers_comma {fuel : Nat} {before : List (Bytes × JVal)} {key text rest : Bytes}
    {v : JVal} (plain : Plain key) (read : parseValue fuel text = .ok (v, 0x2c :: rest)) :
    parseMembers (fuel + 1) before (writeEscaped key ++ 0x3a :: text) =
      parseMembers fuel (before ++ [(key, v)]) rest := by
  obtain ⟨owned, name, fast⟩ := parseString_writeEscaped key (0x3a :: text)
  rw [fast plain, writeEscaped_append] at name
  conv_lhs => unfold parseMembers
  rw [writeEscaped_append, skipWs_cons rfl, name]
  dsimp only
  rw [if_neg (not_not.mpr rfl), skipWs_cons rfl, eat_cons]
  dsimp only
  rw [read]
  rfl

theorem parseValue_string {fuel : Nat} (s rest : Bytes) :
    parseValue (fuel + 1) (writeEscaped s ++ rest) = .ok (.string s, rest) := by
  obtain ⟨owned, read, -⟩ := parseString_writeEscaped s rest
  rw [writeEscaped_append] at read ⊢
  rw [parseValue_quote, read]

theorem stopsAt_cons {b : UInt8} (other : continuesNumber b = false) (rest : Bytes) :
    StopsAt continuesNumber (b :: rest) := by
  rintro c first
  cases first
  exact other

mutual

/-- **A written value is read back** in front of anything that is no part of a number. -/
theorem parseValue_writeValue : ∀ (v : JVal) (fuel : Nat) (rest : Bytes), v.PlainKeys →
    (writeValue v).length ≤ fuel → StopsAt continuesNumber rest →
      parseValue fuel (writeValue v ++ rest) = .ok (v.reread, rest)
  | .null, fuel + 1, rest, _, _, _ => rfl
  | .boolean true, fuel + 1, rest, _, _, _ => rfl
  | .boolean false, fuel + 1, rest, _, _, _ => rfl
  | .number q, fuel + 1, rest, _, _, stops => parseValue_number q stops
  | .string s, fuel + 1, rest, _, _, _ => parseValue_string s rest
  | .array [], fuel + 1, rest, _, _, _ => rfl
  | .object [], fuel + 1, rest, _, _, _ => rfl
  | .array (v :: arr), fuel + 1, rest, plain, room, _ => by
      have inside : (writeElements (v :: arr)).length < fuel := by
        have length : (writeValue (.array (v :: arr))).length =
            (writeElements (v :: arr)).length + 2 := by simp [writeValue]
        omega
      have text : writeValue (.array (v :: arr)) ++ rest =
          0x5b :: (writeElements (v :: arr) ++ 0x5d :: rest) := by simp [writeValue]
      obtain ⟨c, more, form, ink, other⟩ : ∃ c more, writeElements (v :: arr) = c :: more ∧
          isWs c = false ∧ c ≠ 0x5d := by
        obtain ⟨c, more, form, ink, other⟩ := head_writeValue v
        cases arr with
        | nil => exact ⟨c, more, form, ink, other⟩
        | cons w arr =>
            refine ⟨c, more ++ 0x2c :: writeElements (w :: arr), ?_, ink, other⟩
            show writeValue v ++ _ = _
            rw [form]
            rfl
      have elements := parseElements_writeElements v arr fuel [] rest plain inside
      rw [form, List.cons_append] at text elements
      rw [text, parseValue_bracket, skipWs_cons ink, eat_of_ne other]
      exact elements
  | .object ((key, v) :: obj), fuel + 1, rest, plain, room, _ => by
      have inside : (writeMembers ((key, v) :: obj)).length < fuel := by
        have length : (writeValue (.object ((key, v) :: obj))).length =
            (writeMembers ((key, v) :: obj)).length + 2 := by simp [writeValue]
        omega
      have text : writeValue (.object ((key, v) :: obj)) ++ rest =
          0x7b :: (writeMembers ((key, v) :: obj) ++ 0x7d :: rest) := by simp [writeValue]
      obtain ⟨more, form⟩ : ∃ more, writeMembers ((key, v) :: obj) = 0x22 :: more := by
        cases obj <;> exact ⟨_, rfl⟩
      have members := parseMembers_writeMembers key v obj fuel [] rest plain inside
      rw [form, List.cons_append] at text members
      rw [text, parseValue_brace, skipWs_cons rfl, eat_of_ne (by decide)]
      exact members
  | v, 0, rest, _, room, _ => by
      have some_ := length_writeValue_pos v
      omega

/-- The elements of an array up to its bracket. -/
theorem parseElements_writeElements : ∀ (v : JVal) (arr : List JVal) (fuel : Nat)
    (before : List JVal) (rest : Bytes), plainElements (v :: arr) →
      (writeElements (v :: arr)).length < fuel →
        parseElements fuel before (writeElements (v :: arr) ++ 0x5d :: rest) =
          .ok (.array (before ++ rereadElements (v :: arr)), rest)
  | v, [], fuel + 1, before, rest, plain, room => by
      have first := parseValue_writeValue v fuel (0x5d :: rest) plain.1
        (Nat.le_of_lt_succ room) (stopsAt_cons rfl rest)
      exact parseElements_last first
  | v, w :: arr, fuel + 1, before, rest, plain, room => by
      have text : writeElements (v :: w :: arr) ++ 0x5d :: rest =
          writeValue v ++ 0x2c :: (writeElements (w :: arr) ++ 0x5d :: rest) := by
        simp [writeElements]
      have length : (writeElements (v :: w :: arr)).length =
          (writeValue v).length + ((writeElements (w :: arr)).length + 1) := by
        simp [writeElements]
      have first := parseValue_writeValue v fuel
        (0x2c :: (writeElements (w :: arr) ++ 0x5d :: rest)) plain.1 (by omega)
        (stopsAt_cons rfl _)
      have others := parseElements_writeElements w arr fuel (before ++ [v.reread]) rest plain.2
        (by omega)
      rw [text, parseElements_comma first, others, List.append_assoc]
      rfl

/-- The members of an object up to its brace. -/
theorem parseMembers_writeMembers : ∀ (key : Bytes) (v : JVal) (obj : List (Bytes × JVal))
    (fuel : Nat) (before : List (Bytes × JVal)) (rest : Bytes), plainMembers ((key, v) :: obj) →
      (writeMembers ((key, v) :: obj)).length < fuel →
        parseMembers fuel before (writeMembers ((key, v) :: obj) ++ 0x7d :: rest) =
          .ok (.object (before ++ rereadMembers ((key, v) :: obj)), rest)
  | key, v, [], fuel + 1, before, rest, plain, room => by
      have text : writeMembers [(key, v)] ++ 0x7d :: rest =
          writeEscaped key ++ 0x3a :: (writeValue v ++ 0x7d :: rest) := by simp [writeMembers]
      have length : (writeMembers [(key, v)]).length =
          (writeEscaped key).length + ((writeValue v).length + 1) := by simp [writeMembers]
      have first := parseValue_writeValue v fuel (0x7d :: rest) plain.2.1 (by omega)
        (stopsAt_cons rfl rest)
      rw [text, parseMembers_last plain.1 first]
      rfl
  | key, v, (key', w) :: obj, fuel + 1, before, rest, plain, room => by
      have text : writeMembers ((key, v) :: (key', w) :: obj) ++ 0x7d :: rest =
          writeEscaped key ++ 0x3a ::
            (writeValue v ++ 0x2c :: (writeMembers ((key', w) :: obj) ++ 0x7d :: rest)) := by
        simp [writeMembers]
      have length : (writeMembers ((key, v) :: (key', w) :: obj)).length =
          (writeEscaped key).length + ((writeValue v).length +
            ((writeMembers ((key', w) :: obj)).length + 1) + 1) := by
        simp [writeMembers]
      have first := parseValue_writeValue v fuel
        (0x2c :: (writeMembers ((key', w) :: obj) ++ 0x7d :: rest)) plain.2.1 (by omega)
        (stopsAt_cons rfl _)
      have others := parseMembers_writeMembers key' w obj fuel (before ++ [(key, v.reread)]) rest
        plain.2.2 (by omega)
      rw [text, parseMembers_comma plain.1 first, others, List.append_assoc]
      rfl

end

/-- **What is written is read back**, its numbers as the digits denote them. -/
theorem parseJson_toJson {v : JVal} (plain : v.PlainKeys) : parseJson (toJson v) = .ok v.reread := by
  have read := parseValue_writeValue v (2 * (writeValue v).length + 2) [] plain (by omega)
    fun _ impossible => by cases impossible
  rw [List.append_nil] at read
  unfold parseJson toJson
  rw [read]
  rfl

/-- **The round trip.**  A value whose members have names without escapes and whose numbers are
doubles that seventeen digits restore is read back as it is. -/
theorem json_round_trip (v : JVal) (plain : v.PlainKeys) (restored : v.Restored) :
    parseJson (toJson v) = .ok v := by
  rw [parseJson_toJson plain, v.reread_of_restored restored]

/-- A value with every kind of member; the string holds a control byte, a quote, a backslash and
a byte that is no ASCII. -/
def everyKind : JVal :=
  .object [(str "a", .array [.null, .boolean true, .number (3 / 2), .array []]),
    (str "b c", .string [0x01, 0x22, 0x5c, 0x0a, 0xff]), (str "a", .object [])]

theorem json_round_trip_everyKind : parseJson (toJson everyKind) = .ok everyKind := by
  refine json_round_trip everyKind ?_ ?_
  · refine ⟨?_, ⟨trivial, trivial, trivial, trivial, trivial⟩, ?_, trivial, ?_, trivial, trivial⟩ <;>
      decide
  · have number : rereadNumber (3 / 2) = 3 / 2 := by decide +kernel
    exact ⟨⟨trivial, trivial, number, trivial, trivial⟩, trivial, trivial, trivial⟩

end Opencodepp.Util
