import Mathlib.LinearAlgebra.Matrix.DotProduct
import Minima.DenseMatrix
import Minima.Proofs.Exact

/-!
# Vectors in exact arithmetic

Without rounding the running sums of the kernels are sums, so that the inner
product of coordinate lists is bilinear, symmetric and definite.  The second
half reads lists of coordinates as functions on `Fin n` and back.
-/

namespace Minima.Vec

variable {a b c : Vec ℝ} {s x y : ℝ}

/-! ## Inner products -/

theorem sum_eq (a : Vec ℝ) : Vec.sum a = List.sum a := by
  rw [Vec.sum, List.sum_eq_foldl]

@[simp] theorem dot_nil_left (a : Vec ℝ) : dot [] a = 0 := by
  simp [dot, mul, sum_eq]

@[simp] theorem dot_nil_right (a : Vec ℝ) : dot a [] = 0 := by
  simp [dot, mul, sum_eq]

@[simp] theorem dot_cons_cons (x y : ℝ) (a b : Vec ℝ) :
    dot (x :: a) (y :: b) = x * y + dot a b := by
  simp [dot, mul, sum_eq]

theorem dot_comm (a b : Vec ℝ) : dot a b = dot b a := by
  induction a generalizing b with
  | nil => simp
  | cons x a ih =>
      cases b with
      | nil => simp
      | cons y b => simp [ih b, mul_comm]

theorem dot_append {a₁ b₁ : Vec ℝ} (h : a₁.length = b₁.length) (a₂ b₂ : Vec ℝ) :
    dot (a₁ ++ a₂) (b₁ ++ b₂) = dot a₁ b₁ + dot a₂ b₂ := by
  induction a₁ generalizing b₁ with
  | nil =>
      have hb : b₁ = [] := List.length_eq_zero_iff.mp h.symm
      simp [hb]
  | cons x a ih =>
      cases b₁ with
      | nil => simp at h
      | cons y b =>
          have hab : a.length = b.length := by simpa using h
          simp [ih hab, add_assoc]

theorem dot_self_nonneg (a : Vec ℝ) : 0 ≤ dot a a := by
  induction a with
  | nil => simp
  | cons x a ih =>
      rw [dot_cons_cons]
      exact add_nonneg (mul_self_nonneg x) ih

@[simp] theorem length_zeros (n : Nat) : (zeros n : Vec ℝ).length = n := by
  simp [zeros]

@[simp] theorem dot_zeros_left (n : Nat) (a : Vec ℝ) : dot (zeros n) a = 0 := by
  induction n generalizing a with
  | zero => simp [zeros]
  | succ n ih =>
      cases a with
      | nil => simp
      | cons x a =>
          simpa [zeros, List.replicate_succ] using ih a

@[simp] theorem dot_zeros_right (a : Vec ℝ) (n : Nat) : dot a (zeros n) = 0 := by
  rw [dot_comm, dot_zeros_left]

theorem dot_append_zeros (a b : Vec ℝ) (k : Nat) : dot a (b ++ zeros k) = dot a b := by
  induction b generalizing a with
  | nil => simp
  | cons y b ih =>
      cases a with
      | nil => simp
      | cons x a => rw [List.cons_append, dot_cons_cons, dot_cons_cons, ih]

theorem dot_self_eq_zero_iff : dot a a = 0 ↔ a = zeros a.length := by
  induction a with
  | nil => simp [zeros]
  | cons x a ih =>
      rw [dot_cons_cons, add_eq_zero_iff_of_nonneg (mul_self_nonneg x) (dot_self_nonneg a), ih]
      simp [zeros, List.replicate_succ]

theorem norm_eq_zero_iff : norm a = 0 ↔ a = zeros a.length := by
  rw [norm, Scalar.sqrt_real, Real.sqrt_eq_zero (dot_self_nonneg a), dot_self_eq_zero_iff]

theorem norm_mul_self (a : Vec ℝ) : norm a * norm a = dot a a := by
  rw [norm, Scalar.sqrt_real, Real.mul_self_sqrt (dot_self_nonneg a)]

/-! ## Linear combinations -/

@[simp] theorem accumulate_nil_left (s : ℝ) (b : Vec ℝ) : accumulate s [] b = [] := rfl

@[simp] theorem accumulate_cons_cons (s x y : ℝ) (a b : Vec ℝ) :
    accumulate s (x :: a) (y :: b) = (s * x + y) :: accumulate s a b := rfl

theorem accumulate_zero (h : a.length = b.length) : accumulate 0 a b = b := by
  induction a generalizing b with
  | nil => rw [List.length_eq_zero_iff.mp h.symm, accumulate_nil_left]
  | cons x a ih =>
      obtain ⟨y, b, rfl⟩ := List.exists_cons_of_length_eq_add_one h.symm
      rw [accumulate_cons_cons, zero_mul, zero_add, ih (Nat.succ.inj h)]

theorem dot_accumulate_left (h : a.length = b.length) :
    dot (accumulate s a b) c = s * dot a c + dot b c := by
  induction a generalizing b c with
  | nil =>
      have hb : b = [] := List.length_eq_zero_iff.mp h.symm
      simp [hb]
  | cons x a ih =>
      cases b with
      | nil => simp at h
      | cons y b =>
          cases c with
          | nil => simp
          | cons z c =>
              have hab : a.length = b.length := by simpa using h
              simp only [accumulate_cons_cons, dot_cons_cons, ih hab]
              ring

theorem dot_divide_left (a b : Vec ℝ) (s : ℝ) : dot (divide a s) b = dot a b / s := by
  induction a generalizing b with
  | nil => simp [divide]
  | cons x a ih =>
      cases b with
      | nil => simp
      | cons y b =>
          have ih := ih b
          simp only [divide, List.map_cons, dot_cons_cons] at ih ⊢
          rw [ih]
          ring

theorem dot_neg_right (a b : Vec ℝ) : dot a (neg b) = -dot a b := by
  induction a generalizing b with
  | nil => simp
  | cons x a ih =>
      cases b with
      | nil => simp [neg]
      | cons y b =>
          have ih := ih b
          simp only [neg, List.map_cons, dot_cons_cons] at ih ⊢
          rw [ih]
          ring

/-! ## Sums in lanes -/

theorem laneSumFrom_eq (s : Lanes ℝ) (a : Vec ℝ) : laneSumFrom s a = s.total + List.sum a := by
  induction s, a using laneSumFrom.induct with
  | case1 s a b c d e f g h rest ih =>
      rw [laneSumFrom, ih]
      simp only [Lanes.total, List.sum_cons]
      ring
  | case2 s rest hshort =>
      rw [laneSumFrom]
      · nth_rewrite 1 [← add_zero s.total]
        rw [List.foldl_assoc, ← List.sum_eq_foldl]
      · exact hshort

theorem laneDot_eq_dot (a b : Vec ℝ) : laneDot a b = dot a b := by
  rw [laneDot, laneSum, laneSumFrom_eq, dot, sum_eq]
  simp [Lanes.total]

theorem normSq_eq_dot (a : Vec ℝ) : normSq a = dot a a := laneDot_eq_dot a a

theorem normSq_nonneg (a : Vec ℝ) : 0 ≤ normSq a := by
  rw [normSq_eq_dot]
  exact dot_self_nonneg a

theorem laneDot_neg_self (a : Vec ℝ) : laneDot a (neg a) = -normSq a := by
  rw [laneDot_eq_dot, dot_neg_right, normSq_eq_dot]

theorem laneDot_eq_zero_of_normSq (h : normSq b = 0) : laneDot a b = 0 := by
  rw [normSq_eq_dot, dot_self_eq_zero_iff] at h
  rw [laneDot_eq_dot, h, dot_zeros_right]

/-! ## Coordinates as functions -/

variable {n : Nat}

theorem dot_ofFn (u v : Fin n → ℝ) : dot (List.ofFn u) (List.ofFn v) = u ⬝ᵥ v := by
  induction n with
  | zero => simp
  | succ n ih => simp [List.ofFn_succ, ih, dotProduct, Fin.sum_univ_succ]

theorem sqrt_dotProduct_pos {v : Fin n → ℝ} (hv : v ≠ 0) : 0 < √(v ⬝ᵥ v) := by
  have hnonneg : 0 ≤ v ⬝ᵥ v := by
    rw [← dot_ofFn]
    exact dot_self_nonneg _
  exact Real.sqrt_pos.mpr
    (lt_of_le_of_ne hnonneg fun hzero => hv (dotProduct_self_eq_zero.mp hzero.symm))

theorem accumulate_ofFn (s : ℝ) (u v : Fin n → ℝ) :
    accumulate s (List.ofFn u) (List.ofFn v) = List.ofFn (s • u + v) := by
  apply List.ext_getElem <;> simp [accumulate]

theorem add_ofFn (u v : Fin n → ℝ) : add (List.ofFn u) (List.ofFn v) = List.ofFn (u + v) := by
  apply List.ext_getElem <;> simp [add]

theorem sub_ofFn (u v : Fin n → ℝ) : sub (List.ofFn u) (List.ofFn v) = List.ofFn (u - v) := by
  apply List.ext_getElem <;> simp [sub]

theorem mul_ofFn (u v : Fin n → ℝ) : mul (List.ofFn u) (List.ofFn v) = List.ofFn (u * v) := by
  apply List.ext_getElem <;> simp [mul]

theorem divide_ofFn (u : Fin n → ℝ) (s : ℝ) :
    divide (List.ofFn u) s = List.ofFn fun i => u i / s := by
  simp [divide, List.map_ofFn, Function.comp_def]

theorem scale_ofFn (s : ℝ) (u : Fin n → ℝ) : scale s (List.ofFn u) = List.ofFn (s • u) := by
  simp [scale, List.map_ofFn, Function.comp_def, mul_comm, Pi.smul_def]

theorem neg_ofFn (u : Fin n → ℝ) : neg (List.ofFn u) = List.ofFn (-u) := by
  simp [neg, List.map_ofFn, Function.comp_def, Pi.neg_def]

theorem zeros_eq_ofFn (n : Nat) : (zeros n : Vec ℝ) = List.ofFn fun _ : Fin n => 0 := by
  simp [zeros, List.ofFn_const]

theorem unit_eq_ofFn (j : Fin n) : (unit n j : Vec ℝ) = List.ofFn (Pi.single j 1) := by
  apply List.ext_getElem
  · simp [unit]
  · intro i hi _
    have hin : i < n := by simpa [unit] using hi
    simp only [unit, zeros, List.getElem_set, List.getElem_replicate, List.getElem_ofFn,
      Pi.single_apply, Fin.ext_iff, eq_comm]

theorem take_ofFn {m : Nat} (h : n ≤ m) (v : Fin m → ℝ) :
    (List.ofFn v).take n = List.ofFn fun i => v (Fin.castLE h i) := by
  apply List.ext_getElem
  · simp [h]
  · intro i _ _
    simp

def toFn (n : Nat) (a : Vec ℝ) (i : Fin n) : ℝ := a.getD i 0

@[simp] theorem toFn_ofFn (u : Fin n → ℝ) : toFn n (List.ofFn u) = u := by
  funext i
  simp [toFn]

theorem ofFn_toFn (h : a.length = n) : List.ofFn (toFn n a) = a := by
  apply List.ext_getElem
  · simp [h]
  · intro i _ hi
    simp [toFn, hi]

end Minima.Vec
