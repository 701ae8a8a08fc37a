import Mathlib.Logic.Function.Basic

/-!
# Xorshift generators

A number is mixed with its own bits moved to the left, or to the right.  Mixing twice is mixing
once over twice the distance (`mixLeft_mixLeft`, `mixRight_mixRight`), and bits moved out of the
word are gone; so every word is the mixture of some word (`mixLeft_surjective`,
`mixRight_surjective`).
-/

set_option autoImplicit false

namespace Opencodepp.Library

namespace Xorshift

variable {w : Nat}

def mixLeft (distance : Nat) (x : BitVec w) : BitVec w := x ^^^ (x <<< distance)

def mixRight (distance : Nat) (x : BitVec w) : BitVec w := x ^^^ (x >>> distance)

theorem mixLeft_mixLeft (distance : Nat) (x : BitVec w) :
    mixLeft distance (mixLeft distance x) = mixLeft (distance + distance) x := by
  unfold mixLeft
  rw [BitVec.shiftLeft_xor_distrib, BitVec.shiftLeft_add, BitVec.xor_assoc,
    ← BitVec.xor_assoc (x <<< distance), BitVec.xor_self, BitVec.zero_xor]

theorem mixRight_mixRight (distance : Nat) (x : BitVec w) :
    mixRight distance (mixRight distance x) = mixRight (distance + distance) x := by
  unfold mixRight
  rw [BitVec.ushiftRight_xor_distrib, BitVec.shiftRight_add, BitVec.xor_assoc,
    ← BitVec.xor_assoc (x >>> distance), BitVec.xor_self, BitVec.zero_xor]

theorem mixLeft_of_le {distance : Nat} (far : w ≤ distance) (x : BitVec w) :
    mixLeft distance x = x := by
  unfold mixLeft
  rw [BitVec.shiftLeft_eq_zero far, BitVec.xor_zero]

theorem mixRight_of_le {distance : Nat} (far : w ≤ distance) (x : BitVec w) :
    mixRight distance x = x := by
  unfold mixRight
  rw [BitVec.ushiftRight_eq_zero far, BitVec.xor_zero]

/-- A way of mixing that doubles its distance when done twice, and does nothing from afar, reaches
every word. -/
theorem surjective_of_doubling {mix : Nat → BitVec w → BitVec w}
    (twice : ∀ distance x, mix distance (mix distance x) = mix (distance + distance) x)
    (still : ∀ {distance}, w ≤ distance → ∀ x, mix distance x = x) :
    ∀ (left : Nat) {distance : Nat}, 0 < distance → w ≤ distance + left →
      Function.Surjective (mix distance) := by
  intro left
  induction left with
  | zero =>
      intro distance _ far y
      exact ⟨y, still far y⟩
  | succ left inductionHypothesis =>
      intro distance positive near y
      have further : 0 < distance + distance := by omega
      obtain ⟨x, mixed⟩ := inductionHypothesis further (by omega) y
      exact ⟨mix distance x, (twice distance x).trans mixed⟩

theorem mixLeft_surjective {distance : Nat} (positive : 0 < distance) :
    Function.Surjective (mixLeft (w := w) distance) :=
  surjective_of_doubling mixLeft_mixLeft mixLeft_of_le w positive (by omega)

theorem mixRight_surjective {distance : Nat} (positive : 0 < distance) :
    Function.Surjective (mixRight (w := w) distance) :=
  surjective_of_doubling mixRight_mixRight mixRight_of_le w positive (by omega)

end Xorshift

end Opencodepp.Library
