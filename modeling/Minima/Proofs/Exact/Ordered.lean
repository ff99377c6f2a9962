import Minima.Proofs.Exact
import Minima.Proofs.Ordered

/-!
# The order of exact arithmetic

Without rounding the laws of ordered arithmetic are those of the real numbers.
-/

namespace Minima

instance : OrderedScalar ℝ where
  le_refl_left _ := le_refl _
  le_refl_right _ := le_refl _
  le_trans := le_trans
  le_total _ _ := le_total _ _
  lt_iff_le_not_ge := lt_iff_le_not_ge
  le_refl_of_isFinite _ := le_refl _
  isFinite_of_le_of_le _ _ _ _ := rfl
  isFinite_smallest := rfl
  zero_lt_smallest := inv_pos.mpr (Nat.cast_pos.mpr (by positivity))
  zero_lt_tenThousandth := by norm_num
  neg_one_le_zero := by norm_num
  le_refl_of_mul _ := ⟨le_refl _, le_refl _⟩
  le_refl_of_div _ := ⟨le_refl _, le_refl _⟩
  mul_self_nonneg _ := mul_self_nonneg _
  mul_nonneg ha hb _ := mul_nonneg ha hb
  mul_self_le_mul_self := mul_self_le_mul_self
  mul_half_le_mul_half h := mul_le_mul_of_nonneg_right h (by norm_num)
  one_le_mul_self h := one_le_mul_of_one_le_of_one_le h h
  add_nonneg := add_nonneg
  lt_of_sub_pos := sub_pos.mp
  div_half_nonneg h := div_nonneg h (by norm_num)
  one_le_div hb _ h := (one_le_div hb).mpr h
  pos_of_div_pos hb h := pos_of_mul_pos_left (by rwa [div_eq_mul_inv] at h) (inv_pos.mpr hb).le
  sqrt_nonneg _ := Real.sqrt_nonneg _

end Minima
