import Mathlib.Data.Rat.Lemmas
import Opencodepp.Util.JsonRoundTrip

/-!
# Counts in JSON

A count below `2 ^ 53` is a double, its seventeen digits are its decimal digits and zeros, and
what is written of it is its decimal rendering, from which it is read back.
-/

set_option autoImplicit false

namespace Opencodepp.Util

open Opencodepp.Library

/-! ## Rounding -/

theorem roundQuotient_one (n : Nat) : roundQuotient n 1 = n := by
  simp [roundQuotient, Nat.mod_one]

theorem scaleBinary_up (n d k : Nat) : scaleBinary n d (k : Int) = (n * 2 ^ k, d) := by
  unfold scaleBinary
  rw [if_pos (Int.natCast_nonneg k), Int.toNat_natCast]

theorem scaleBinary_down (n d k : Nat) : scaleBinary n d (-(k : Int)) = (n, d * 2 ^ k) := by
  unfold scaleBinary
  split
  · next up =>
    obtain rfl : k = 0 := by omega
    simp
  · rw [Int.neg_neg, Int.toNat_natCast]

/-- **A count below `2 ^ 53` is a double.** -/
theorem roundBinary64_one {n : Nat} (small : n < 2 ^ 53) : roundBinary64 n 1 = n := by
  unfold roundBinary64
  split
  · next zero => rw [zero]; rfl
  · next some_ =>
    have log : Nat.log2 n < 53 := (Nat.log2_lt some_).mpr small
    obtain ⟨k, room⟩ : ∃ k, Nat.log2 n + k = 52 := ⟨52 - Nat.log2 n, by omega⟩
    have guess : (Nat.log2 n : Int) - (Nat.log2 1 : Int) = (Nat.log2 n : Nat) := by
      have one : Nat.log2 1 = 0 := rfl
      rw [one]
      simp
    have ulp : max ((Nat.log2 n : Int) - 52) (-1074) = -(k : Int) := by omega
    have exact_ : ¬n < 2 ^ Nat.log2 n := Nat.not_lt.mpr (Nat.log2_self_le some_)
    dsimp only
    rw [guess, scaleBinary_up, Nat.one_mul, Nat.mul_one, if_neg exact_, ulp, Int.neg_neg,
      scaleBinary_up, roundQuotient_one, scaleBinary_down]
    have finite : n < 2 ^ 1024 :=
      Nat.lt_of_lt_of_le small (Nat.pow_le_pow_right (by decide) (by decide))
    have below : n * 2 ^ k < 1 * 2 ^ k * 2 ^ 1024 := by
      rw [Nat.one_mul, Nat.mul_comm]
      exact Nat.mul_lt_mul_of_pos_left finite (Nat.two_pow_pos k)
    rw [if_pos below, Nat.one_mul, Rat.mkRat_eq_div]
    have nonzero : ((2 ^ k : Nat) : Rat) ≠ 0 := Nat.cast_ne_zero.mpr (Nat.two_pow_pos k).ne'
    push_cast at nonzero ⊢
    exact mul_div_cancel_right₀ _ nonzero

/-! ## Digits -/

/-- A power of ten behind a number adds its zeros. -/
theorem decimal_mul_pow {n : Nat} (some_ : n ≠ 0) (k : Nat) :
    decimal (n * 10 ^ k) = decimal n ++ List.replicate k 0x30 := by
  induction k with
  | zero => simp
  | succ k inductionHypothesis =>
      have positive : 0 < n * 10 ^ k :=
        Nat.mul_pos (Nat.pos_of_ne_zero some_) (Nat.pow_pos (by decide))
      have step : n * 10 ^ (k + 1) = 10 * (n * 10 ^ k) + 0 := by
        rw [Nat.pow_succ, Nat.mul_comm 10, Nat.mul_assoc]
        rfl
      have zero : decimal (10 * (n * 10 ^ k) + 0) = decimal (n * 10 ^ k) ++ [0x30] := by
        unfold decimal
        rw [← Nat.toDigits_append_toDigits (by decide) positive (by decide), List.map_append]
        rfl
      rw [step, zero, inductionHypothesis, List.append_assoc, ← List.replicate_succ']

theorem length_decimal (n : Nat) : (decimal n).length = (Nat.toDigits 10 n).length :=
  List.length_map ..

/-- The rendering of a number has as many digits as it needs. -/
theorem lt_pow_length_decimal (n : Nat) : n < 10 ^ (decimal n).length := by
  rw [length_decimal]
  exact (Nat.length_toDigits_le_iff (by decide) Nat.length_toDigits_pos).mp (Nat.le_refl _)

/-- The seventeen digits of a count are its own and zeros. -/
theorem significant_one {n : Nat} (some_ : n ≠ 0) (short : (decimal n).length ≤ 17) :
    significant n 1 = (n * 10 ^ (17 - (decimal n).length), ((decimal n).length : Int) - 1) := by
  have exponent : decimalExponent n 1 = ((decimal n).length : Int) - 1 := by
    unfold decimalExponent
    rw [if_pos (Nat.one_le_iff_ne_zero.mpr some_), Nat.div_one, length_decimal]
  obtain ⟨k, room⟩ : ∃ k, (decimal n).length + k = 17 := ⟨17 - (decimal n).length, by omega⟩
  have shift : 16 - (((decimal n).length : Int) - 1) = (k : Nat) := by omega
  have below : n * 10 ^ k < 10 ^ 17 := by
    rw [← room, Nat.pow_add]
    exact Nat.mul_lt_mul_of_pos_right (lt_pow_length_decimal n) (Nat.pow_pos (by decide))
  have rest : 17 - (decimal n).length = k := by omega
  unfold significant
  dsimp only
  rw [exponent, shift, if_pos (Int.natCast_nonneg k), Int.toNat_natCast, roundQuotient_one,
    if_neg (Nat.ne_of_lt below), rest]

theorem stripZeros_replicate (k : Nat) : stripZeros (List.replicate k 0x30) = [] := by
  unfold stripZeros
  rw [List.reverse_replicate, List.dropWhile_replicate_eq_filter_not]
  simp

/-- **A count is printed as its digits.** -/
theorem formatDouble_natCast {n : Nat} (small : n < 2 ^ 53) :
    formatDouble (n : Rat) = decimal n := by
  rcases Nat.eq_zero_or_pos n with rfl | positive
  · rfl
  · have some_ : n ≠ 0 := Nat.pos_iff_ne_zero.mp positive
    have short : (decimal n).length ≤ 17 := by
      rw [length_decimal]
      exact (Nat.length_toDigits_le_iff (by decide) (by decide)).mpr
        (Nat.lt_trans small (by decide))
    have long : 0 < (decimal n).length := List.length_pos_iff.mpr (decimal_ne_nil n)
    obtain ⟨l, length⟩ : ∃ l, (decimal n).length = l + 1 :=
      ⟨_, (Nat.succ_pred_eq_of_pos long).symm⟩
    have exponent : ((decimal n).length : Int) - 1 = (l : Nat) := by omega
    have inRange : ¬(decide ((l : Int) < -4) || decide (17 ≤ (l : Int))) = true := by
      simp
      omega
    have sign : ¬(n : Rat) < 0 := Rat.not_lt.mpr Rat.natCast_nonneg
    unfold formatDouble
    rw [if_neg (Nat.cast_ne_zero.mpr some_), Rat.num_natCast, Rat.den_natCast, Int.natAbs_natCast,
      significant_one some_ short, exponent]
    dsimp only
    rw [if_neg inRange, if_pos (Int.natCast_nonneg l), if_neg sign, Int.toNat_natCast,
      decimal_mul_pow some_, ← length, List.take_left, List.drop_left, stripZeros_replicate]
    exact List.append_nil _

/-- **A count comes back from its digits.** -/
theorem rereadNumber_natCast {n : Nat} (small : n < 2 ^ 53) : rereadNumber (n : Rat) = n := by
  let numeral : Numeral := ⟨false, decimal n, [], none, decimal_ne_nil n, all_digits_decimal n,
    fun _ impossible => absurd impossible List.not_mem_nil, fun _ impossible => by cases impossible⟩
  have text : numeral.text = decimal n := by
    show [] ++ decimal n ++ [] ++ [] = _
    simp
  have value : numeral.value = n := by
    have digits : digitsValue (decimal n ++ []) = n := by
      rw [List.append_nil, digitsValue_decimal]
    have exponent : digitsValue [] = 0 := rfl
    show fromChars false (decimal n) [] false [] = n
    unfold fromChars
    dsimp only
    rw [digits, exponent]
    simpa using roundBinary64_one small
  have read : parseNumber (numeral.text ++ []) = some (.number numeral.value, []) :=
    parseNumber_text numeral fun _ impossible => by cases impossible
  rw [List.append_nil, text, value] at read
  unfold rereadNumber
  rw [formatDouble_natCast small, read]

/-- The conversion of a count to 64 bits keeps it. -/
theorem toUInt64_natCast (n : UInt64) : toUInt64 (n.toNat : Rat) = n := by
  have wide : ((n.toNat : Int) % 2 ^ 64).toNat = n.toNat := by
    have below := n.toNat_lt
    omega
  unfold toUInt64
  rw [Rat.num_natCast, Rat.den_natCast, Int.natCast_one, Int.tdiv_one, wide, UInt64.ofNat_toNat]

end Opencodepp.Util
