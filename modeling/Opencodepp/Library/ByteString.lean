import Mathlib.Algebra.Ring.Nat

/-!
# Byte strings

Strings of the program are sequences of bytes without an encoding.  This module
fixes their type and the few operations of the standard library the model needs:
literals, decimal rendering, searching, splitting into components, and the cut a
C string suffers at its first zero byte.
-/

set_option autoImplicit false

namespace Opencodepp.Library

/-- A string of the program: any sequence of bytes. -/
abbrev Bytes := List UInt8

/-- One instance for all the lists of byte strings that are searched. -/
instance : LawfulBEq Bytes := List.instLawfulBEq

/-- The byte of an ASCII character. -/
def ch (c : Char) : UInt8 := c.toNat.toUInt8

/-- The bytes of a literal. -/
def str (s : String) : Bytes := s.toUTF8.data.toList

/-- The decimal rendering of a number. -/
def decimal (n : Nat) : Bytes := (Nat.toDigits 10 n).map ch

/-- The path separator. -/
def slash : UInt8 := 0x2f

/-- Whether a byte is an ASCII digit. -/
def isDigit (b : UInt8) : Bool := 0x30 ≤ b && b ≤ 0x39

/-- The code of a rendered digit. -/
theorem code_of_mem_toDigits {n : Nat} {c : Char} (member : c ∈ Nat.toDigits 10 n) :
    48 ≤ c.toNat ∧ c.toNat ≤ 57 := by
  have shown := Nat.isDigit_of_mem_toDigits (by decide) (by decide) member
  simp only [Char.isDigit, Bool.and_eq_true, decide_eq_true_eq] at shown
  exact shown

/-- The bytes of a rendering are digits. -/
theorem isDigit_of_mem_decimal {n : Nat} {b : UInt8} (member : b ∈ decimal n) :
    isDigit b = true := by
  obtain ⟨c, digit, rfl⟩ := List.mem_map.mp member
  obtain ⟨low, high⟩ := code_of_mem_toDigits digit
  unfold isDigit ch
  simp only [Bool.and_eq_true, decide_eq_true_eq, UInt8.le_iff_toNat_le, Nat.toUInt8_eq,
    UInt8.toNat_ofNat', UInt8.reduceToNat]
  omega

/-- Numbers are told apart by their renderings. -/
theorem decimal_injective {m n : Nat} (same : decimal m = decimal n) : m = n := by
  have back (k : Nat) : (decimal k).map (fun b => Char.ofNat b.toNat) = Nat.toDigits 10 k := by
    unfold decimal
    rw [List.map_map]
    calc (Nat.toDigits 10 k).map ((fun b => Char.ofNat b.toNat) ∘ ch)
        = (Nat.toDigits 10 k).map id := by
          refine List.map_congr_left fun c digit => ?_
          have high := (code_of_mem_toDigits digit).2
          have small : c.toNat % 256 = c.toNat := Nat.mod_eq_of_lt (by omega)
          simp [ch, small]
      _ = Nat.toDigits 10 k := List.map_id _
  have digits : Nat.toDigits 10 m = Nat.toDigits 10 n := by rw [← back, ← back, same]
  rw [← Nat.ofDigitChars_ten_toDigits (n := m), digits, Nat.ofDigitChars_ten_toDigits]

/-- Whether a byte is white space in the C locale. -/
def isSpace (b : UInt8) : Bool := b == 0x20 || (0x09 ≤ b && b ≤ 0x0d)

/-- The lower-case form of an ASCII letter; every other byte is unchanged. -/
def lowerByte (b : UInt8) : UInt8 := if 0x41 ≤ b && b ≤ 0x5a then b + 0x20 else b

/-- The index of the first occurrence of a string in another. -/
def indexOf (needle : Bytes) : Bytes → Option Nat
  | [] => if needle.isEmpty then some 0 else none
  | b :: rest =>
      if needle.isPrefixOf (b :: rest) then some 0
      else (indexOf needle rest).map (· + 1)

/-- Whether a string occurs in another. -/
def occursIn (needle hay : Bytes) : Bool := (indexOf needle hay).isSome

/-- The number a string of digits denotes. -/
def digitsValue (digits : Bytes) : Nat :=
  digits.foldl (fun value d => value * 10 + (d.toNat - 0x30)) 0

/-- A rendering denotes its number. -/
theorem digitsValue_decimal (n : Nat) : digitsValue (decimal n) = n := by
  have loop : ∀ (digits : List Char) (value : Nat),
      (∀ c ∈ digits, 48 ≤ c.toNat ∧ c.toNat ≤ 57) →
        (digits.map ch).foldl (fun value d => value * 10 + (d.toNat - 0x30)) value =
          Nat.ofDigitChars 10 digits value := by
    intro digits
    induction digits with
    | nil =>
        intro value _
        rfl
    | cons c rest inductionHypothesis =>
        intro value proper
        have range := proper c (List.mem_cons_self ..)
        have code : (ch c).toNat = c.toNat := by
          simp only [ch, Nat.toUInt8_eq, UInt8.toNat_ofNat']
          omega
        rw [List.map_cons, List.foldl_cons, code, Nat.ofDigitChars_cons, Nat.mul_comm value 10,
          inductionHypothesis _ fun d member => proper d (List.mem_cons_of_mem _ member)]
        rfl
  unfold digitsValue decimal
  rw [loop _ _ fun c member => code_of_mem_toDigits member, Nat.ofDigitChars_ten_toDigits]

theorem decimal_ne_nil (n : Nat) : decimal n ≠ [] := by
  simp [decimal, Nat.toDigits_ne_nil]

/-- A string occurs in another exactly when it is a contiguous part of it. -/
theorem occursIn_iff (needle : Bytes) : ∀ {hay : Bytes},
    occursIn needle hay = true ↔ ∃ before after, hay = before ++ needle ++ after := by
  intro hay
  induction hay with
  | nil =>
      constructor
      · intro occurs
        unfold occursIn indexOf at occurs
        split at occurs
        · next empty => exact ⟨[], [], by simpa using empty⟩
        · simp at occurs
      · rintro ⟨before, after, same⟩
        have empty : needle = [] := by
          have parts := (List.append_eq_nil_iff.mp same.symm).1
          exact (List.append_eq_nil_iff.mp parts).2
        simp [occursIn, indexOf, empty]
  | cons b rest inductionHypothesis =>
      constructor
      · intro occurs
        unfold occursIn indexOf at occurs
        split at occurs
        · next starts =>
            obtain ⟨after, same⟩ := List.isPrefixOf_iff_prefix.mp starts
            exact ⟨[], after, by simpa using same.symm⟩
        · rw [Option.isSome_map] at occurs
          obtain ⟨before, after, same⟩ := inductionHypothesis.mp occurs
          exact ⟨b :: before, after, by simp [same]⟩
      · rintro ⟨before, after, same⟩
        unfold occursIn indexOf
        split
        · rfl
        · next notStart =>
            rw [Option.isSome_map]
            cases before with
            | nil =>
                refine absurd (List.isPrefixOf_iff_prefix.mpr ⟨after, ?_⟩) notStart
                simpa using same.symm
            | cons c before =>
                simp only [List.cons_append, List.cons.injEq] at same
                exact inductionHypothesis.mpr ⟨before, after, same.2⟩

/-- Where a string occurs. -/
theorem indexOf_eq_some {needle : Bytes} : ∀ {hay : Bytes} {i : Nat},
    indexOf needle hay = some i → needle <+: hay.drop i := by
  intro hay
  induction hay with
  | nil =>
      intro i found
      unfold indexOf at found
      split at found
      · next empty => simp [List.isEmpty_iff.mp empty]
      · cases found
  | cons b rest inductionHypothesis =>
      intro i found
      unfold indexOf at found
      split at found
      · next starts =>
          cases found
          exact List.isPrefixOf_iff_prefix.mp starts
      · obtain ⟨j, later, rfl⟩ := Option.map_eq_some_iff.mp found
        exact inductionHypothesis later

theorem indexOf_add_length_le {needle hay : Bytes} {i : Nat} (nonempty : needle ≠ [])
    (found : indexOf needle hay = some i) : i + needle.length ≤ hay.length := by
  have fits := (indexOf_eq_some found).length_le
  have positive := List.length_pos_iff.mpr nonempty
  rw [List.length_drop] at fits
  omega

/-- The first occurrence in a part that contains one. -/
theorem indexOf_append {needle : Bytes} (more : Bytes) : ∀ {hay : Bytes} {i : Nat},
    indexOf needle hay = some i → indexOf needle (hay ++ more) = some i := by
  intro hay
  induction hay with
  | nil =>
      intro i found
      unfold indexOf at found
      split at found
      · next empty =>
          cases found
          rw [List.isEmpty_iff.mp empty]
          cases more with
          | nil => rfl
          | cons b rest => simp [indexOf]
      · cases found
  | cons b rest inductionHypothesis =>
      intro i found
      rw [List.cons_append]
      unfold indexOf at found ⊢
      split at found
      · next starts =>
          cases found
          have longer : needle <+: b :: (rest ++ more) :=
            (List.isPrefixOf_iff_prefix.mp starts).trans (List.prefix_append (b :: rest) more)
          rw [if_pos (List.isPrefixOf_iff_prefix.mpr longer)]
      · next notStart =>
          obtain ⟨j, later, rfl⟩ := Option.map_eq_some_iff.mp found
          have notLonger : ¬ needle.isPrefixOf (b :: (rest ++ more)) = true := by
            intro starts
            refine notStart (List.isPrefixOf_iff_prefix.mpr ?_)
            have short : needle.length ≤ (b :: rest).length := by
              have fits := (indexOf_eq_some later).length_le
              rw [List.length_drop] at fits
              simp only [List.length_cons]
              omega
            exact List.prefix_of_prefix_length_le (List.isPrefixOf_iff_prefix.mp starts)
              (List.prefix_append (b :: rest) more) short
          rw [if_neg notLonger, inductionHypothesis later]
          rfl

/-- A first occurrence that lies within a part. -/
theorem indexOf_of_append {needle hay more : Bytes} {i : Nat}
    (found : indexOf needle (hay ++ more) = some i) (within : i + needle.length ≤ hay.length) :
    indexOf needle hay = some i := by
  have occurs : occursIn needle hay = true := by
    rw [occursIn_iff]
    have starts := indexOf_eq_some found
    rw [List.drop_append_of_le_length (by omega)] at starts
    have short : needle <+: hay.drop i :=
      List.prefix_of_prefix_length_le starts (List.prefix_append _ _)
        (by rw [List.length_drop]; omega)
    obtain ⟨after, same⟩ := short
    exact ⟨hay.take i, after, by rw [List.append_assoc, same, List.take_append_drop]⟩
  obtain ⟨j, first⟩ := Option.isSome_iff_exists.mp occurs
  rw [first, ← indexOf_append more first, found]

/-! ## Components -/

/-- The non-empty pieces of a string between separators. -/
def tokens (separator : UInt8) (s : Bytes) : List Bytes :=
  (s.splitOn separator).filter (· ≠ [])

theorem tokens_append_separator (separator : UInt8) (first second : Bytes) :
    tokens separator (first ++ separator :: second) =
      tokens separator first ++ tokens separator second := by
  simp [tokens, List.splitOn_append_cons_self]

@[simp] theorem tokens_nil (separator : UInt8) : tokens separator [] = [] := rfl

theorem separator_notMem_of_mem_tokens {separator : UInt8} : ∀ {s piece : Bytes},
    piece ∈ tokens separator s → separator ∉ piece := by
  intro s
  suffices all : ∀ piece ∈ s.splitOn separator, separator ∉ piece by
    intro piece member
    exact all piece (List.mem_filter.mp member).1
  induction s with
  | nil => simp
  | cons b rest inductionHypothesis =>
      intro piece member
      rw [List.splitOn_cons_eq_if_modifyHead] at member
      split at member
      · rcases List.mem_cons.mp member with same | later
        · simp [same]
        · exact inductionHypothesis piece later
      · next different =>
          cases split : rest.splitOn separator with
          | nil => simp [split] at member
          | cons head others =>
              rw [split] at member inductionHypothesis
              rcases List.mem_cons.mp member with same | later
              · rw [same]
                intro inside
                rcases List.mem_cons.mp inside with equal | deeper
                · simp [equal] at different
                · exact inductionHypothesis head (by simp) deeper
              · exact inductionHypothesis piece (List.mem_cons_of_mem _ later)

/-! ## C strings -/

/-- What a C function sees of a string: everything before the first zero byte. -/
def cString (s : Bytes) : Bytes := s.takeWhile (· != 0)

theorem cString_append_of_notMem {s : Bytes} (clean : (0 : UInt8) ∉ s) (t : Bytes) :
    cString (s ++ t) = s ++ cString t := by
  unfold cString
  rw [List.takeWhile_append_of_pos]
  intro b member
  simpa using fun same : b = 0 => clean (same ▸ member)

theorem cString_of_notMem {s : Bytes} (clean : (0 : UInt8) ∉ s) : cString s = s := by
  simpa [cString] using cString_append_of_notMem clean []

theorem cString_append_of_mem : ∀ {s : Bytes}, (0 : UInt8) ∈ s → ∀ t : Bytes,
    cString (s ++ t) = cString s := by
  intro s
  induction s with
  | nil => simp
  | cons b rest inductionHypothesis =>
      intro member t
      unfold cString at *
      by_cases zero : b = 0
      · simp [zero]
      · have later : (0 : UInt8) ∈ rest := by
          rcases List.mem_cons.mp member with same | later
          · exact absurd same.symm zero
          · exact later
        simp [zero, inductionHypothesis later t]

theorem cString_subset {s : Bytes} {b : UInt8} (member : b ∈ cString s) : b ∈ s :=
  (List.takeWhile_sublist _).mem member

end Opencodepp.Library
