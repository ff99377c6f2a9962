import Minima.Proofs.Exact

/-!
# Exact arithmetic with undefined quotients

Among the real numbers a quotient by zero has a value.  Here it has none, nor has the root of a
negative number, and nothing that is computed from what is undefined is defined.  So a defined
result shows that nothing was divided by zero on the way to it.
-/

namespace Minima

inductive Partial where
  | undefined
  | exact (x : ℝ)

namespace Partial

def map (f : ℝ → ℝ) : Partial → Partial
  | exact a => exact (f a)
  | undefined => undefined

def map₂ (f : ℝ → ℝ → ℝ) : Partial → Partial → Partial
  | exact a, exact b => exact (f a b)
  | _, _ => undefined

noncomputable def div : Partial → Partial → Partial
  | exact a, exact b => if b = 0 then undefined else exact (a / b)
  | _, _ => undefined

noncomputable def sqrt : Partial → Partial
  | exact a => if a < 0 then undefined else exact √a
  | undefined => undefined

/-- A comparison, which holds between defined values only. -/
def Compares (r : ℝ → ℝ → Prop) : Partial → Partial → Prop
  | exact a, exact b => r a b
  | _, _ => False

noncomputable instance : Scalar Partial where
  add := map₂ (· + ·)
  sub := map₂ (· - ·)
  mul := map₂ (· * ·)
  div := div
  neg := map (- ·)
  zero := exact 0
  one := exact 1
  natCast n := exact n
  ofScientific m s e := exact (OfScientific.ofScientific m s e)
  lt := Compares (· < ·)
  le := Compares (· ≤ ·)
  decLt _ _ := Classical.propDecidable _
  decLe _ _ := Classical.propDecidable _
  abs := map Scalar.abs
  sqrt := sqrt
  cbrt := map Scalar.cbrt
  ln := map Scalar.ln
  pow := map₂ Scalar.pow
  isNegative
    | exact a => Scalar.isNegative a
    | undefined => false
  isFinite
    | exact _ => true
    | undefined => false
  epsilon := exact Scalar.epsilon
  largest := exact Scalar.largest
  smallest := exact Scalar.smallest
  infinity := exact Scalar.infinity

section

variable {a b : ℝ}

theorem zero_eq : (0 : Partial) = exact 0 := rfl

theorem one_eq : (1 : Partial) = exact 1 := rfl

@[simp] theorem exact_add (a b : ℝ) : exact a + exact b = exact (a + b) := rfl

@[simp] theorem exact_mul (a b : ℝ) : exact a * exact b = exact (a * b) := rfl

theorem exact_div (hb : b ≠ 0) : exact a / exact b = exact (a / b) := if_neg hb

@[simp] theorem exact_lt : exact a < exact b ↔ a < b := Iff.rfl

@[simp] theorem exact_le : exact a ≤ exact b ↔ a ≤ b := Iff.rfl

@[simp] theorem abs_exact (a : ℝ) : Scalar.abs (exact a) = exact |a| := rfl

theorem sqrt_exact (ha : 0 ≤ a) : Scalar.sqrt (exact a) = exact √a := if_neg ha.not_gt

@[simp] theorem isZero_exact (a : ℝ) : Scalar.isZero (exact a) = decide (a = 0) := by
  rw [Scalar.isZero, Scalar.same, zero_eq]
  simp only [exact_le]
  simp [le_antisymm_iff]

end

end Partial

end Minima
