import Mathlib.Analysis.Calculus.Deriv.Add
import Mathlib.Analysis.Calculus.Deriv.Mul
import Mathlib.Analysis.Calculus.Deriv.Pow
import Minima.Proofs.Exact.Matrix

/-!
# Quadratic functions

A quadratic function along one coordinate is its value, the partial derivative times the way gone
and a multiple of the square of that way.  The multiple does not depend on the direction of the
way, so that it drops out of a difference between two opposite ends; it is zero if the function is
affine, and then one end is enough.
-/

namespace Minima

open Matrix

variable {m n : Nat}

def IsGradient (f : (Fin n → ℝ) → ℝ) (u g : Fin n → ℝ) : Prop :=
  ∀ j, HasDerivAt (fun a => f (Function.update u j a)) (g j) (u j)

def IsJacobian (f : (Fin n → ℝ) → Fin m → ℝ) (u : Fin n → ℝ) (J : Matrix (Fin m) (Fin n) ℝ) :
    Prop :=
  ∀ i, IsGradient (fun w => f w i) u (J i)

theorem IsGradient.unique {f : (Fin n → ℝ) → ℝ} {u g g' : Fin n → ℝ} (h : IsGradient f u g)
    (h' : IsGradient f u g') : g = g' := funext fun j => (h j).unique (h' j)

theorem IsJacobian.unique {f : (Fin n → ℝ) → Fin m → ℝ} {u : Fin n → ℝ}
    {J J' : Matrix (Fin m) (Fin n) ℝ} (h : IsJacobian f u J) (h' : IsJacobian f u J') : J = J' :=
  funext fun i => (h i).unique (h' i)

/-- A polynomial of degree two or less. -/
structure Quadratic (n : Nat) where
  constant : ℝ
  linear : Fin n → ℝ
  square : Matrix (Fin n) (Fin n) ℝ

namespace Quadratic

def eval (q : Quadratic n) (u : Fin n → ℝ) : ℝ :=
  q.constant + q.linear ⬝ᵥ u + u ⬝ᵥ q.square *ᵥ u

def gradient (q : Quadratic n) (u : Fin n → ℝ) : Fin n → ℝ :=
  q.linear + (q.square + q.squareᵀ) *ᵥ u

def evals (r : Fin m → Quadratic n) (u : Fin n → ℝ) (i : Fin m) : ℝ := (r i).eval u

def partials (r : Fin m → Quadratic n) (u : Fin n → ℝ) : Matrix (Fin m) (Fin n) ℝ :=
  Matrix.of fun i => (r i).gradient u

def IsAffine (q : Quadratic n) : Prop := q.square = 0

variable (q : Quadratic n) (u : Fin n → ℝ) (j : Fin n) (a h : ℝ)

theorem eval_add_single :
    q.eval (u + Pi.single j a) = q.eval u + q.gradient u j * a + q.square j j * a ^ 2 := by
  have hlinear : q.linear ⬝ᵥ Pi.single j a = q.linear j * a := dotProduct_single q.linear a j
  have hafter : u ⬝ᵥ q.square *ᵥ Pi.single j a = (q.squareᵀ *ᵥ u) j * a := by
    rw [dotProduct_mulVec, dotProduct_single, mulVec_transpose]
  have hbefore : Pi.single j a ⬝ᵥ q.square *ᵥ u = (q.square *ᵥ u) j * a := by
    rw [single_dotProduct, mul_comm]
  have hsquare : Pi.single j a ⬝ᵥ q.square *ᵥ Pi.single j a = q.square j j * a ^ 2 := by
    rw [single_dotProduct, mulVec, dotProduct_single]
    ring
  rw [eval, eval, gradient, mulVec_add, add_dotProduct, dotProduct_add, dotProduct_add,
    dotProduct_add, hlinear, hafter, hbefore, hsquare, add_mulVec, Pi.add_apply, Pi.add_apply]
  ring

theorem eval_update :
    q.eval (Function.update u j a) =
      q.eval u + q.gradient u j * (a - u j) + q.square j j * (a - u j) ^ 2 := by
  rw [← eval_add_single]
  congr 1
  funext i
  rcases eq_or_ne i j with rfl | hij
  · rw [Function.update_self, Pi.add_apply, Pi.single_eq_same, add_sub_cancel]
  · rw [Function.update_of_ne hij, Pi.add_apply, Pi.single_eq_of_ne hij, add_zero]

theorem isGradient_gradient : IsGradient q.eval u (q.gradient u) := by
  intro j
  have hway : HasDerivAt (fun a => a - u j) 1 (u j) := (hasDerivAt_id' (u j)).sub_const (u j)
  have hlinear := (hway.const_mul (q.gradient u j)).const_add (q.eval u)
  have hsquare := (hway.pow 2).const_mul (q.square j j)
  simp only [eval_update]
  refine (hlinear.add hsquare).congr_deriv ?_
  rw [sub_self]
  ring

theorem isJacobian_partials (r : Fin m → Quadratic n) (u : Fin n → ℝ) :
    IsJacobian (evals r) u (partials r u) := fun i => (r i).isGradient_gradient u

theorem eval_update_add_sub :
    q.eval (Function.update u j (u j + h)) - q.eval (Function.update u j (u j - h)) =
      q.gradient u j * (2 * h) := by
  rw [eval_update, eval_update]
  ring

theorem IsAffine.eval_update_sub {q : Quadratic n} (hq : q.IsAffine) :
    q.eval (Function.update u j (u j + h)) - q.eval u = q.gradient u j * h := by
  have hsquare : q.square j j = 0 := congrFun (congrFun hq j) j
  rw [eval_update, hsquare]
  ring

end Quadratic

/-! ## Points along a coordinate -/

theorem modify_ofFn {α : Type} (u : Fin n → α) (j : Fin n) (f : α → α) :
    (List.ofFn u).modify j f = List.ofFn (Function.update u j (f (u j))) := by
  apply List.ext_getElem
  · simp
  · intro i hi _
    simp only [List.getElem_modify, List.getElem_ofFn, Function.update_apply, Fin.ext_iff]
    rcases eq_or_ne (j : Nat) i with rfl | hij
    · rw [if_pos rfl]
    · rw [if_neg hij, if_neg hij.symm]

end Minima
