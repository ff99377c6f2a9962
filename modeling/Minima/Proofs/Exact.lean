import Mathlib.Analysis.Real.Sqrt
import Mathlib.Analysis.SpecialFunctions.Pow.Real
import Minima.Scalar

/-!
# Exact arithmetic

The real numbers as an arithmetic.  Every definition of the library can be read
over them: additions, products and quotients do not round, square roots are
exact, and no value is undefined or infinite.  The constants of the arithmetic
keep the values that they have for doubles.
-/

namespace Minima

noncomputable instance : Scalar ℝ where
  toAdd := inferInstance
  toSub := inferInstance
  toMul := inferInstance
  toDiv := inferInstance
  toNeg := inferInstance
  toZero := inferInstance
  toOne := inferInstance
  toNatCast := inferInstance
  toOfScientific := inferInstance
  toLT := inferInstance
  toLE := inferInstance
  decLt := inferInstance
  decLe := inferInstance
  abs x := |x|
  sqrt := Real.sqrt
  cbrt x := SignType.sign x * |x| ^ ((3 : ℕ) : ℝ)⁻¹
  ln := Real.log
  pow := Real.rpow
  isNegative x := decide (x < 0)
  isFinite _ := true
  epsilon := ((2 ^ 52 : ℕ) : ℝ)⁻¹
  largest := (2 ^ 1024 - 2 ^ 971 : ℕ)
  smallest := ((2 ^ 1022 : ℕ) : ℝ)⁻¹
  infinity := (2 ^ 1024 : ℕ)

namespace Scalar

@[simp] theorem isZero_real (x : ℝ) : isZero x = decide (x = 0) := by
  simp [isZero, same, le_antisymm_iff]

@[simp] theorem isNegative_real (x : ℝ) : isNegative x = decide (x < 0) := rfl

@[simp] theorem abs_real (x : ℝ) : Scalar.abs x = |x| := rfl

@[simp] theorem sqrt_real (x : ℝ) : Scalar.sqrt x = √x := rfl

@[simp] theorem min_real (a b : ℝ) : Scalar.min a b = Min.min a b := by
  unfold Scalar.min Scalar.isUndefined
  rw [if_neg (by simp)]
  split
  · exact (min_eq_right ‹_›).symm
  · exact (min_eq_left (le_of_not_ge ‹_›)).symm

@[simp] theorem max_real (a b : ℝ) : Scalar.max a b = Max.max a b := by
  unfold Scalar.max Scalar.isUndefined
  rw [if_neg (by simp)]
  split
  · exact (max_eq_right ‹_›).symm
  · exact (max_eq_left (le_of_not_ge ‹_›)).symm

end Scalar

end Minima
