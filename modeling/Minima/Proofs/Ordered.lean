import Minima.Norm

/-!
# Ordered arithmetic

The laws of rounded arithmetic that the descent of the least squares solver rests
on.  Comparisons are a total order on the defined values, and rounding keeps
signs and is monotone.  Nothing is said about how far a result is rounded.
-/

namespace Minima

class OrderedScalar (α : Type) [Scalar α] : Prop where
  le_refl_left {a b : α} : a ≤ b → a ≤ a
  le_refl_right {a b : α} : a ≤ b → b ≤ b
  le_trans {a b c : α} : a ≤ b → b ≤ c → a ≤ c
  le_total {a b : α} : a ≤ a → b ≤ b → a ≤ b ∨ b ≤ a
  lt_iff_le_not_ge {a b : α} : a < b ↔ a ≤ b ∧ ¬ b ≤ a
  le_refl_of_isFinite {a : α} : Scalar.isFinite a = true → a ≤ a
  isFinite_of_le_of_le {a b c : α} : Scalar.isFinite a = true → Scalar.isFinite c = true →
    a ≤ b → b ≤ c → Scalar.isFinite b = true
  isFinite_smallest : Scalar.isFinite (Scalar.smallest : α) = true
  zero_lt_smallest : (0 : α) < Scalar.smallest
  zero_lt_tenThousandth : (0 : α) < 1e-4
  neg_one_le_zero : (-1 : α) ≤ 0
  le_refl_of_mul {a b : α} : a * b ≤ a * b → a ≤ a ∧ b ≤ b
  le_refl_of_div {a b : α} : a / b ≤ a / b → a ≤ a ∧ b ≤ b
  mul_self_nonneg {a : α} : a ≤ a → 0 ≤ a * a
  mul_nonneg {a b : α} : 0 ≤ a → 0 ≤ b → a * b ≤ a * b → 0 ≤ a * b
  mul_self_le_mul_self {a b : α} : 0 ≤ a → a ≤ b → a * a ≤ b * b
  mul_half_le_mul_half {a b : α} : a ≤ b → a * 0.5 ≤ b * 0.5
  one_le_mul_self {a : α} : 1 ≤ a → 1 ≤ a * a
  add_nonneg {a b : α} : 0 ≤ a → 0 ≤ b → 0 ≤ a + b
  lt_of_sub_pos {a b : α} : 0 < a - b → b < a
  div_half_nonneg {a : α} : 0 ≤ a → 0 ≤ a / 0.5
  one_le_div {a b : α} : 0 < b → Scalar.isFinite b = true → b ≤ a → 1 ≤ a / b
  pos_of_div_pos {a b : α} : 0 < b → 0 < a / b → 0 < a
  sqrt_nonneg {a : α} : Scalar.sqrt a ≤ Scalar.sqrt a → 0 ≤ Scalar.sqrt a

namespace OrderedScalar

variable {α : Type} [Scalar α] [OrderedScalar α] {a b c : α}

/-! ## Order -/

theorem le_of_lt (h : a < b) : a ≤ b := (lt_iff_le_not_ge.mp h).1

theorem not_le_of_lt (h : a < b) : ¬ b ≤ a := (lt_iff_le_not_ge.mp h).2

theorem lt_of_lt_of_le (hab : a < b) (hbc : b ≤ c) : a < c := by
  rw [lt_iff_le_not_ge]
  constructor
  · exact le_trans (le_of_lt hab) hbc
  · intro hca
    exact not_le_of_lt hab (le_trans hbc hca)

theorem lt_of_le_of_lt (hab : a ≤ b) (hbc : b < c) : a < c := by
  rw [lt_iff_le_not_ge]
  constructor
  · exact le_trans hab (le_of_lt hbc)
  · intro hca
    exact not_le_of_lt hbc (le_trans hca hab)

theorem lt_trans (hab : a < b) (hbc : b < c) : a < c := lt_of_lt_of_le hab (le_of_lt hbc)

theorem lt_of_not_le (ha : a ≤ a) (hb : b ≤ b) (h : ¬ b ≤ a) : a < b := by
  rw [lt_iff_le_not_ge]
  rcases le_total ha hb with hab | hba
  · exact ⟨hab, h⟩
  · exact absurd hba h

theorem le_of_not_lt (ha : a ≤ a) (hb : b ≤ b) (h : ¬ a < b) : b ≤ a := by
  rcases le_total ha hb with hab | hba
  · exact Decidable.byContradiction fun hba => h (lt_iff_le_not_ge.mpr ⟨hab, hba⟩)
  · exact hba

theorem ne_of_lt (h : a < b) : a ≠ b := by
  rintro rfl
  exact not_le_of_lt h (le_of_lt h)

theorem not_lt_self (a : α) : ¬ a < a := fun h => ne_of_lt h rfl

theorem zero_le_zero : (0 : α) ≤ 0 := le_refl_right neg_one_le_zero

/-! ## Rounded results -/

theorem square_nonneg (h : Scalar.isFinite (Scalar.square a) = true) : 0 ≤ Scalar.square a := by
  obtain ⟨ha, -⟩ := le_refl_of_mul (le_refl_of_isFinite h)
  exact mul_self_nonneg ha

theorem halfSquare_le (ha : 0 ≤ a) (hab : a ≤ b) :
    Scalar.square a * 0.5 ≤ Scalar.square b * 0.5 :=
  mul_half_le_mul_half (mul_self_le_mul_self ha hab)

theorem one_le_square (h : 1 ≤ a) : 1 ≤ Scalar.square a := one_le_mul_self h

end OrderedScalar

end Minima
