import Opencodepp.Util.JsonRoundTrip

/-!
# The grammar of JSON texts

The texts of RFC 8259 with their values, as relations that mention no reader: white space,
numbers, strings with their escapes, arrays and objects.  Bytes from `0x80` on stand for
themselves, and the name of a member has no escape.  `Rules` is what a reader may handle in
another way: whether the digits of a number may begin with zeros, and whether `\u` escapes may
stand that are no UTF-16; the grammar does not say what the latter denote.
-/

set_option autoImplicit false

namespace Opencodepp.Util

open Opencodepp.Library

structure Rules where
  leadingZeros : Bool
  unpaired : Bool
  deriving DecidableEq

/-- The grammar as it is published. -/
def rfc8259 : Rules := ⟨false, false⟩

/-! ## Strings -/

/-- Four hexadecimal digits and the unit they denote. -/
def IsUnit (h : Bytes) (u : Nat) : Prop :=
  ∃ a b c d A B C D, h = [a, b, c, d] ∧ hexDigit a = some A ∧ hexDigit b = some B ∧
    hexDigit c = some C ∧ hexDigit d = some D ∧
    u = ((A.toNat * 16 + B.toNat) * 16 + C.toNat) * 16 + D.toNat

def IsHigh (u : Nat) : Prop := 0xD800 ≤ u ∧ u ≤ 0xDBFF

def IsLow (u : Nat) : Prop := 0xDC00 ≤ u ∧ u ≤ 0xDFFF

/-- The code point of a high and a low unit. -/
def pairValue (hi lo : Nat) : Nat := 0x10000 + (hi - 0xD800) * 0x400 + (lo - 0xDC00)

/-- The UTF-8 encoding of a code point. -/
def utf8 (cp : Nat) : Bytes := String.utf8EncodeChar (Char.ofNat cp)

/-- What stands between the quotes of a string, and the bytes it denotes. -/
inductive Chars (rules : Rules) : Bytes → Bytes → Prop
  | nil : Chars rules [] []
  | plain {c : UInt8} {rest s : Bytes} : isPlain c = true → Chars rules rest s →
      Chars rules (c :: rest) (c :: s)
  | short {e b : UInt8} {rest s : Bytes} : shortEscape e = some b → Chars rules rest s →
      Chars rules (0x5c :: e :: rest) (b :: s)
  | unit {h : Bytes} {u : Nat} {rest s : Bytes} : IsUnit h u → ¬IsHigh u → ¬IsLow u →
      Chars rules rest s → Chars rules (0x5c :: 0x75 :: (h ++ rest)) (utf8 u ++ s)
  | pair {h l : Bytes} {hi lo : Nat} {rest s : Bytes} : IsUnit h hi → IsHigh hi → IsUnit l lo →
      IsLow lo → Chars rules rest s →
        Chars rules (0x5c :: 0x75 :: (h ++ 0x5c :: 0x75 :: (l ++ rest)))
          (utf8 (pairValue hi lo) ++ s)
  | lone {h : Bytes} {u : Nat} {t rest s : Bytes} : rules.unpaired = true → IsUnit h u →
      IsLow u → t ≠ [] → Chars rules rest s →
        Chars rules (0x5c :: 0x75 :: (h ++ rest)) (t ++ s)
  | mismatched {h l : Bytes} {hi lo : Nat} {t rest s : Bytes} : rules.unpaired = true →
      IsUnit h hi → IsHigh hi → IsUnit l lo → ¬IsLow lo → t ≠ [] → Chars rules rest s →
        Chars rules (0x5c :: 0x75 :: (h ++ 0x5c :: 0x75 :: (l ++ rest))) (t ++ s)

/-! ## Numbers -/

/-- One digit or more. -/
def IsDigits (w : Bytes) : Prop := w ≠ [] ∧ ∀ b ∈ w, isDigit b = true

/-- The digits before the point: a zero, or digits that do not begin with one. -/
def IsWhole (rules : Rules) (w : Bytes) : Prop :=
  IsDigits w ∧ (rules.leadingZeros = true ∨ w = [0x30] ∨ w.head? ≠ some 0x30)

/-- A fraction, which need not be there, and its digits. -/
inductive Fraction : Bytes → Bytes → Prop
  | absent : Fraction [] []
  | digits {w : Bytes} : IsDigits w → Fraction (0x2e :: w) w

/-- An exponent, which need not be there, with its sign and its digits. -/
inductive Exponent : Bytes → Bool → Bytes → Prop
  | absent : Exponent [] false []
  | unsigned {e : UInt8} {w : Bytes} : e = ch 'e' ∨ e = ch 'E' → IsDigits w →
      Exponent (e :: w) false w
  | plus {e : UInt8} {w : Bytes} : e = ch 'e' ∨ e = ch 'E' → IsDigits w →
      Exponent (e :: 0x2b :: w) false w
  | minus {e : UInt8} {w : Bytes} : e = ch 'e' ∨ e = ch 'E' → IsDigits w →
      Exponent (e :: 0x2d :: w) true w

/-- A number and the double nearest to it. -/
inductive NumberText (rules : Rules) : Bytes → Rat → Prop
  | mk (negative : Bool) {whole f fraction x exponent : Bytes} {expNegative : Bool} :
      IsWhole rules whole → Fraction f fraction → Exponent x expNegative exponent →
        NumberText rules ((if negative then [0x2d] else []) ++ (whole ++ (f ++ x)))
          (fromChars negative whole fraction expNegative exponent)

/-! ## Values -/

/-- White space, which may be empty. -/
def Ws (w : Bytes) : Prop := ∀ b ∈ w, isWs b = true

mutual

/-- A value without white space around it. -/
inductive ValueText (rules : Rules) : Bytes → JVal → Prop
  | null : ValueText rules (str "null") .null
  | true_ : ValueText rules (str "true") (.boolean true)
  | false_ : ValueText rules (str "false") (.boolean false)
  | number {w : Bytes} {q : Rat} : NumberText rules w q → ValueText rules w (.number q)
  | string {w s : Bytes} : Chars rules w s → ValueText rules (0x22 :: (w ++ [0x22])) (.string s)
  | emptyArray {a : Bytes} : Ws a → ValueText rules (0x5b :: (a ++ [0x5d])) (.array [])
  | array {w : Bytes} {arr : List JVal} : ElementsText rules w arr →
      ValueText rules (0x5b :: (w ++ [0x5d])) (.array arr)
  | emptyObject {a : Bytes} : Ws a → ValueText rules (0x7b :: (a ++ [0x7d])) (.object [])
  | object {w : Bytes} {obj : List (Bytes × JVal)} : MembersText rules w obj →
      ValueText rules (0x7b :: (w ++ [0x7d])) (.object obj)

/-- The elements of an array with the white space around them. -/
inductive ElementsText (rules : Rules) : Bytes → List JVal → Prop
  | last {a w b : Bytes} {v : JVal} : Ws a → ValueText rules w v → Ws b →
      ElementsText rules (a ++ (w ++ b)) [v]
  | more {a w b rest : Bytes} {v : JVal} {arr : List JVal} : Ws a → ValueText rules w v → Ws b →
      ElementsText rules rest arr →
        ElementsText rules (a ++ (w ++ (b ++ 0x2c :: rest))) (v :: arr)

/-- The members of an object with the white space around them. -/
inductive MembersText (rules : Rules) : Bytes → List (Bytes × JVal) → Prop
  | last {a key b c w d : Bytes} {v : JVal} : Ws a → Plain key → Ws b → Ws c →
      ValueText rules w v → Ws d →
        MembersText rules (a ++ 0x22 :: (key ++ 0x22 :: (b ++ 0x3a :: (c ++ (w ++ d)))))
          [(key, v)]
  | more {a key b c w d rest : Bytes} {v : JVal} {obj : List (Bytes × JVal)} : Ws a →
      Plain key → Ws b → Ws c → ValueText rules w v → Ws d → MembersText rules rest obj →
        MembersText rules
          (a ++ 0x22 :: (key ++ 0x22 :: (b ++ 0x3a :: (c ++ (w ++ (d ++ 0x2c :: rest))))))
          ((key, v) :: obj)

end

/-- A JSON text: a value with white space around it. -/
def JsonText (rules : Rules) (s : Bytes) (v : JVal) : Prop :=
  ∃ a w b, s = a ++ (w ++ b) ∧ Ws a ∧ ValueText rules w v ∧ Ws b

/-! ## Units -/

theorem hexDigit_lt {h : UInt8} {A : UInt32} (digit : hexDigit h = some A) : A.toNat < 16 := by
  have all : ∀ n < 256, (hexDigit (UInt8.ofNat n)).all (·.toNat < 16) = true := by decide +kernel
  have here := all h.toNat h.toNat_lt
  rw [UInt8.ofNat_toNat, digit] at here
  exact of_decide_eq_true here

/-- One more hexadecimal digit. -/
theorem toNat_shift_or {x y : UInt32} (room : x.toNat < 2 ^ 28) (digit : y.toNat < 16) :
    ((x <<< 4) ||| y).toNat = x.toNat * 16 + y.toNat := by
  rw [UInt32.toNat_or, UInt32.toNat_shiftLeft]
  have shift : (4 : UInt32).toNat % 32 = 4 := rfl
  have below : x.toNat <<< 4 % 2 ^ 32 = x.toNat <<< 4 := by
    rw [Nat.shiftLeft_eq]
    exact Nat.mod_eq_of_lt (by omega)
  rw [shift, below, ← Nat.shiftLeft_add_eq_or_of_lt (show y.toNat < 2 ^ 4 from digit),
    Nat.shiftLeft_eq]

/-- **The reader takes the four digits of a unit.** -/
theorem hexQuad_eq_some_iff {input rest : Bytes} {cp : UInt32} :
    hexQuad input = some (cp, rest) ↔ ∃ h, input = h ++ rest ∧ IsUnit h cp.toNat := by
  have value {a b c d : UInt8} {A B C D : UInt32} (first : hexDigit a = some A)
      (second : hexDigit b = some B) (third : hexDigit c = some C) (fourth : hexDigit d = some D) :
      ((((((A <<< 4) ||| B) <<< 4) ||| C) <<< 4) ||| D).toNat =
        ((A.toNat * 16 + B.toNat) * 16 + C.toNat) * 16 + D.toNat := by
    have boundA := hexDigit_lt first
    have boundB := hexDigit_lt second
    have boundC := hexDigit_lt third
    have two : ((A <<< 4) ||| B).toNat = A.toNat * 16 + B.toNat :=
      toNat_shift_or (by omega) boundB
    have three : ((((A <<< 4) ||| B) <<< 4) ||| C).toNat =
        (A.toNat * 16 + B.toNat) * 16 + C.toNat := by
      rw [toNat_shift_or (by omega) boundC, two]
    rw [toNat_shift_or (by omega) (hexDigit_lt fourth), three]
  constructor
  · intro read
    unfold hexQuad at read
    split at read
    · next a b c d tail =>
      simp only [Option.bind_eq_bind, Option.bind_eq_some_iff, Option.some.injEq,
        Prod.mk.injEq] at read
      obtain ⟨A, first, B, second, C, third, D, fourth, rfl, rfl⟩ := read
      exact ⟨[a, b, c, d], rfl, a, b, c, d, A, B, C, D, rfl, first, second, third, fourth,
        value first second third fourth⟩
    · cases read
  · rintro ⟨h, rfl, a, b, c, d, A, B, C, D, rfl, first, second, third, fourth, same⟩
    have this : cp = (((((A <<< 4) ||| B) <<< 4) ||| C) <<< 4) ||| D :=
      UInt32.toNat_inj.mp (same.trans (value first second third fourth).symm)
    show hexQuad (a :: b :: c :: d :: rest) = _
    unfold hexQuad
    dsimp only
    rw [first, second, third, fourth, this]
    rfl

theorem isUnit_lt {h : Bytes} {u : Nat} (unit : IsUnit h u) : u < 0x10000 := by
  obtain ⟨a, b, c, d, A, B, C, D, -, first, second, third, fourth, rfl⟩ := unit
  have boundA := hexDigit_lt first
  have boundB := hexDigit_lt second
  have boundC := hexDigit_lt third
  have boundD := hexDigit_lt fourth
  omega

/-! ## UTF-8 -/

theorem continuationByte_eq (x : UInt32) : continuationByte x = x.toUInt8 &&& 0x3f ||| 0x80 := by
  unfold continuationByte
  rw [UInt32.toUInt8_or, UInt32.toUInt8_and]
  rfl

/-- A leading byte holds the bits it has room for. -/
theorem lead_eq {x marks : UInt32} {k : Nat} (mask : UInt8) (masks : mask.toNat = 2 ^ k - 1)
    (small : k ≤ 8) (fits : x.toNat < 2 ^ k) :
    (x ||| marks).toUInt8 = x.toUInt8 &&& mask ||| marks.toUInt8 := by
  have kept : x.toUInt8 &&& mask = x.toUInt8 := by
    apply UInt8.toNat_inj.mp
    have wide : 2 ^ k ≤ 2 ^ 8 := Nat.pow_le_pow_right (by decide) small
    rw [UInt8.toNat_and, masks, Nat.and_two_pow_sub_one_eq_mod, UInt32.toNat_toUInt8,
      Nat.mod_eq_of_lt (show x.toNat < 2 ^ 8 by omega), Nat.mod_eq_of_lt fits]
  rw [UInt32.toUInt8_or, kept]

theorem toNat_shiftRight (x : UInt32) {k : Nat} (small : k < 32) :
    (x >>> UInt32.ofNat k).toNat = x.toNat / 2 ^ k := by
  rw [UInt32.toNat_shiftRight, UInt32.toNat_ofNat', Nat.mod_eq_of_lt (show k < 2 ^ 32 by omega),
    Nat.mod_eq_of_lt small, Nat.shiftRight_eq_div_pow]

/-- A code point that UTF-8 encodes: none of the surrogates. -/
def IsScalar (cp : Nat) : Prop := cp < 0xD800 ∨ (0xDFFF < cp ∧ cp < 0x110000)

/-- **The reader encodes a code point as UTF-8 does.** -/
theorem utf8Encode_eq {cp : UInt32} (scalar : IsScalar cp.toNat) :
    utf8Encode cp = utf8 cp.toNat := by
  have char : (Char.ofNat cp.toNat).val = cp := by
    have valid : cp.toNat.isValidChar := scalar
    unfold Char.ofNat
    rw [dif_pos valid]
    exact UInt32.toNat_inj.mp rfl
  have one : cp < 0x80 ↔ cp ≤ 0x7f := by
    rw [UInt32.lt_iff_toNat_lt, UInt32.le_iff_toNat_le]
    exact Nat.lt_succ_iff
  have two : cp < 0x800 ↔ cp ≤ 0x7ff := by
    rw [UInt32.lt_iff_toNat_lt, UInt32.le_iff_toNat_le]
    exact Nat.lt_succ_iff
  have three : cp < 0x10000 ↔ cp ≤ 0xffff := by
    rw [UInt32.lt_iff_toNat_lt, UInt32.le_iff_toNat_le]
    exact Nat.lt_succ_iff
  have below : cp.toNat < 0x110000 := by
    unfold IsScalar at scalar
    omega
  unfold utf8
  rw [String.utf8EncodeChar_eq_utf8EncodeCharFast]
  unfold String.utf8EncodeCharFast utf8Encode
  dsimp only
  rw [char]
  by_cases ascii : cp < 0x80
  · rw [if_pos ascii, if_pos (one.mp ascii)]
  · rw [if_neg ascii, if_neg (fun le => ascii (one.mpr le))]
    by_cases short : cp < 0x800
    · have fits : (cp >>> 6).toNat < 2 ^ 5 := by
        rw [show (6 : UInt32) = UInt32.ofNat 6 from rfl, toNat_shiftRight cp (by decide)]
        exact Nat.div_lt_of_lt_mul (UInt32.lt_iff_toNat_lt.mp short)
      rw [if_pos short, if_pos (two.mp short), continuationByte_eq,
        lead_eq 0x1f rfl (by decide) fits]
      rfl
    · rw [if_neg short, if_neg (fun le => short (two.mpr le))]
      by_cases middle : cp < 0x10000
      · have fits : (cp >>> 12).toNat < 2 ^ 4 := by
          rw [show (12 : UInt32) = UInt32.ofNat 12 from rfl, toNat_shiftRight cp (by decide)]
          exact Nat.div_lt_of_lt_mul (UInt32.lt_iff_toNat_lt.mp middle)
        rw [if_pos middle, if_pos (three.mp middle), continuationByte_eq, continuationByte_eq,
          lead_eq 0x0f rfl (by decide) fits]
        rfl
      · have fits : (cp >>> 18).toNat < 2 ^ 3 := by
          rw [show (18 : UInt32) = UInt32.ofNat 18 from rfl, toNat_shiftRight cp (by decide)]
          omega
        rw [if_neg middle, if_neg (fun le => middle (three.mpr le)), continuationByte_eq,
          continuationByte_eq, continuationByte_eq, lead_eq 0x07 rfl (by decide) fits]
        rfl

theorem utf8Encode_ne_nil (cp : UInt32) : utf8Encode cp ≠ [] := by
  unfold utf8Encode
  split_ifs <;> exact List.cons_ne_nil _ _

/-- The reader's code point of a high and a low unit. -/
theorem toNat_pair {hi lo : UInt32} (high : IsHigh hi.toNat) (low : IsLow lo.toNat) :
    (((hi - 0xD800) <<< 10) + 0x10000 + (lo - 0xDC00)).toNat = pairValue hi.toNat lo.toNat := by
  obtain ⟨from_, to_⟩ := high
  obtain ⟨from', to'⟩ := low
  have first : (hi - 0xD800).toNat = hi.toNat - 0xD800 :=
    UInt32.toNat_sub_of_le _ _ (UInt32.le_iff_toNat_le.mpr from_)
  have second : (lo - 0xDC00).toNat = lo.toNat - 0xDC00 :=
    UInt32.toNat_sub_of_le _ _ (UInt32.le_iff_toNat_le.mpr from')
  have shifted : ((hi - 0xD800) <<< 10).toNat = (hi.toNat - 0xD800) * 0x400 := by
    rw [UInt32.toNat_shiftLeft, first, Nat.shiftLeft_eq]
    exact Nat.mod_eq_of_lt (by simp; omega)
  rw [UInt32.toNat_add, UInt32.toNat_add, shifted, second]
  unfold pairValue
  simp only [UInt32.reduceToNat]
  omega

theorem isScalar_pairValue {hi lo : Nat} (high : IsHigh hi) (low : IsLow lo) :
    IsScalar (pairValue hi lo) := by
  unfold IsHigh at high
  unfold IsLow at low
  unfold IsScalar pairValue
  omega

theorem isScalar_unit {u : Nat} (small : u < 0x10000) (notHigh : ¬IsHigh u) (notLow : ¬IsLow u) :
    IsScalar u := by
  unfold IsHigh at notHigh
  unfold IsLow at notLow
  unfold IsScalar
  omega

end Opencodepp.Util
