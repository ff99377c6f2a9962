import Mathlib.Algebra.Order.Star.Real
import Mathlib.LinearAlgebra.Matrix.DotProduct
import Minima.Proofs.Factorization.Damped
import Minima.Proofs.Factorization.Pivoting

/-!
# The problem without a diagonal

With pivoting the equations up to the first zero on the diagonal are all that the triangle has, so
that the point that solves them, with zeros for the other unknowns, is a least squares point.  Of
a matrix of full column rank no equation is left out.
-/

namespace Minima

open Matrix

/-! ## The regular part of a triangle -/

theorem Line.length_solveUpper_le (lines : List (Line ℝ)) (rhs : Vec ℝ) :
    (Line.solveUpper lines rhs).length ≤ lines.length := by
  fun_induction Line.solveUpper lines rhs with
  | case1 l lines b rhs x ih =>
      rw [List.length_cons, List.length_cons]
      exact Nat.succ_le_succ ih
  | case2 => exact Nat.zero_le _

theorem Line.length_regular_le (lines : List (Line ℝ)) :
    (Line.regular lines).length ≤ lines.length :=
  (List.takeWhile_prefix _).length_le

theorem Line.length_solveRegular (lines : List (Line ℝ)) (rhs : Vec ℝ) :
    (Line.solveRegular lines rhs).length = lines.length := by
  have hle :=
    (Line.length_solveUpper_le (Line.regular lines) rhs).trans (Line.length_regular_le lines)
  simp only [Line.solveRegular, List.length_append, Vec.length_zeros]
  omega

theorem Line.solveRegular_cons {l : Line ℝ} (h : l.diagonal ≠ 0) (lines : List (Line ℝ)) (b : ℝ)
    (rhs : Vec ℝ) :
    Line.solveRegular (l :: lines) (b :: rhs) =
      (b - Vec.dot l.tail (Line.solveRegular lines rhs)) / l.diagonal ::
        Line.solveRegular lines rhs := by
  have hregular : Line.regular (l :: lines) = l :: Line.regular lines :=
    List.takeWhile_cons_of_pos (by simpa using h)
  simp only [Line.solveRegular, hregular, Line.solveUpper, List.length_cons, Vec.dot_append_zeros,
    Nat.add_sub_add_right, List.cons_append]

theorem lineValues_solveRegular {lines : List (Line ℝ × ℝ)} {i : Nat} (hi : i < lines.length)
    (hregular : ∀ k, (hk : k ≤ i) → lines[k].1.diagonal ≠ 0) :
    (lineValues lines (Line.solveRegular (lines.map (·.1)) (lines.map (·.2))) (-1))[i]? =
      some 0 := by
  induction lines generalizing i with
  | nil => cases hi
  | cons line lines ih =>
      obtain ⟨l, b⟩ := line
      have hdiagonal : l.diagonal ≠ 0 := hregular 0 (Nat.zero_le i)
      rw [List.map_cons, List.map_cons, Line.solveRegular_cons hdiagonal, lineValues_cons]
      cases i with
      | zero =>
          rw [mul_div_cancel₀ _ hdiagonal, List.getElem?_cons_zero]
          congr 1
          ring
      | succ i =>
          rw [List.getElem?_cons_succ]
          exact ih (Nat.lt_of_succ_lt_succ hi) fun k hk => hregular (k + 1) (Nat.succ_le_succ hk)

theorem eq_zero_of_lineValues_solveRegular {lines : List (Line ℝ × ℝ)}
    (h : ∀ a ∈ lineValues lines (Line.solveRegular (lines.map (·.1)) (lines.map (·.2))) 0, a = 0) :
    ∀ a ∈ Line.solveRegular (lines.map (·.1)) (lines.map (·.2)), a = 0 := by
  induction lines with
  | nil => exact nofun
  | cons line lines ih =>
      obtain ⟨l, b⟩ := line
      by_cases hdiagonal : l.diagonal = 0
      · have hregular : Line.regular (l :: lines.map (·.1)) = [] :=
          List.takeWhile_cons_of_neg (by simp [hdiagonal])
        rw [List.map_cons, Line.solveRegular, hregular]
        exact fun a => List.eq_of_mem_replicate
      · rw [List.map_cons, List.map_cons, Line.solveRegular_cons hdiagonal] at h ⊢
        rw [lineValues_cons] at h
        obtain ⟨hvalue, hvalues⟩ := List.forall_mem_cons.mp h
        have hrest := ih hvalues
        refine List.forall_mem_cons.mpr ⟨?_, hrest⟩
        have hzeros := List.eq_replicate_of_mem hrest
        rw [hzeros, ← Vec.zeros, Vec.dot_zeros_right, mul_zero, add_zero, add_zero] at hvalue
        rw [hzeros, ← Vec.zeros, Vec.dot_zeros_right]
        exact (mul_eq_zero.mp hvalue).resolve_left hdiagonal

namespace Factorization

variable {m n : Nat} {A : Matrix (Fin m) (Fin n) ℝ}

theorem vanishes_factor (A : Matrix (Fin m) (Fin n) ℝ) (hnm : n ≤ m) :
    Vanishes 0 (factor .plain true (.ofMatrix A)).pivots :=
  (dominates_factor A hnm).vanishes

variable {f : Factorization ℝ} {σ : Equiv.Perm (Fin n)} {U : Matrix (Fin m) (Fin m) ℝ}

theorem Factors.row_eq_zero (h : Factors A f σ U) (hnm : n ≤ m) (hvanishes : Vanishes 0 f.pivots)
    {k : Nat} {i : Fin n} (hki : k ≤ i) (hk : k < f.pivots.length)
    (hzero : f.pivots[k].diagonal = 0) (j : Fin n) :
    (Uᵀ * A) (Fin.castLE hnm i) (σ j) = 0 := by
  have hpivots (l : Fin n) : (l : Nat) < f.pivots.length := by simp [h.length_pivots]
  have hi := (hvanishes k i hki (hpivots i) hzero).1
  obtain hij | hij | hij := lt_trichotomy (i : Nat) j
  · rw [h.entry_eq_above hij (hpivots j)]
    have habove := (hvanishes i j hij.le (hpivots j) hi).2 hij
    rwa [Nat.zero_add] at habove
  · obtain rfl := Fin.ext hij
    rw [h.entry_eq_diagonal rfl (hpivots i), hi]
  · exact h.entry_eq_zero hij

theorem Factors.diagonal_eq (h : Factors A f σ U) (hnm : n ≤ m) (i : Fin n)
    (hi : (i : Nat) < f.pivots.length) :
    (Uᵀ * A).submatrix (Fin.castLE hnm) σ i i = f.pivots[(i : Nat)].diagonal :=
  h.entry_eq_diagonal rfl hi

theorem Factors.mulVec_eq_or_row_eq_zero (h : Factors A f σ U) (hnm : n ≤ m)
    (hvanishes : Vanishes 0 f.pivots) {lines : List (Line ℝ × ℝ)} {c z : Fin n → ℝ}
    (hL : Line.lowerMatrix (lines.map (·.1)) =
      .ofMatrix ((Uᵀ * A).submatrix (Fin.castLE hnm) σ)ᵀ)
    (hc : lines.map (·.2) = List.ofFn c)
    (hz : List.ofFn z = Line.solveRegular (lines.map (·.1)) (lines.map (·.2))) (i : Fin n) :
    ((Uᵀ * A).submatrix (Fin.castLE hnm) σ *ᵥ z) i = c i ∨
      ∀ j, (Uᵀ * A).submatrix (Fin.castLE hnm) σ i j = 0 := by
  by_cases hregular : ∀ k (hk : k < f.pivots.length), k ≤ (i : Nat) → f.pivots[k].diagonal ≠ 0
  · left
    have hcount : lines.length = n := length_of_lowerMatrix hL
    have hdiagonal : ∀ k, (hk : k ≤ (i : Nat)) → lines[k].1.diagonal ≠ 0 := by
      intro k hk
      have hkn : k < n := hk.trans_lt i.isLt
      rw [diagonal_of_lowerMatrix hL ⟨k, hkn⟩, transpose_apply,
        h.diagonal_eq hnm ⟨k, hkn⟩ (by simp [h.length_pivots, hkn])]
      exact hregular k _ hk
    have hvalue := lineValues_solveRegular (by simp [hcount]) hdiagonal
    rw [← hz, lineValues_ofFn hL hc, List.getElem?_ofFn, dif_pos i.isLt] at hvalue
    have hvalue := Option.some.inj hvalue
    rw [transpose_transpose, Pi.add_apply, neg_one_smul, Pi.neg_apply, ← sub_eq_add_neg] at hvalue
    exact sub_eq_zero.mp hvalue
  · right
    push Not at hregular
    obtain ⟨k, hk, hki, hzero⟩ := hregular
    exact h.row_eq_zero hnm hvanishes hki hk hzero

theorem Factors.mulVec_solveRegular (h : Factors A f σ U) (hnm : n ≤ m)
    (hvanishes : Vanishes 0 f.pivots) (b : Fin m → ℝ) :
    ∃ z : Fin n → ℝ,
      Line.solveRegular (Head.lines (DampedSystem.ofFactorization f (List.ofFn b)).upper)
        (DampedSystem.ofFactorization f (List.ofFn b)).rhs = List.ofFn z ∧
      (∀ i, ((Uᵀ * A).submatrix (Fin.castLE hnm) σ *ᵥ z) i = (Uᵀ *ᵥ b) (Fin.castLE hnm i) ∨
        ∀ j, (Uᵀ * A).submatrix (Fin.castLE hnm) σ i j = 0) ∧
      ((Uᵀ * A).submatrix (Fin.castLE hnm) σ *ᵥ z = 0 → z = 0) := by
  have hrhs := h.rhs_ofFactorization hnm b
  have hlower := h.lowerMatrix_lines hnm (List.ofFn b)
  have hheads : (DampedSystem.ofFactorization f (List.ofFn b)).upper.length = n := by
    simp [DampedSystem.ofFactorization, h.length_pivots]
  generalize hupper : Head.lines (DampedSystem.ofFactorization f (List.ofFn b)).upper = upper
    at hlower ⊢
  have hlength : upper.length = n := by rw [← hupper, Head.lines, length_linesFrom, hheads]
  rw [hrhs]
  -- the lines with their right hand sides
  have hfst : (upper.zip (List.ofFn fun i => (Uᵀ *ᵥ b) (Fin.castLE hnm i))).map (·.1) = upper :=
    List.map_fst_zip (by simp [hlength])
  have hsnd : (upper.zip (List.ofFn fun i => (Uᵀ *ᵥ b) (Fin.castLE hnm i))).map (·.2) =
      List.ofFn fun i => (Uᵀ *ᵥ b) (Fin.castLE hnm i) := List.map_snd_zip (by simp [hlength])
  have hz := Vec.ofFn_toFn ((Line.length_solveRegular upper
    (List.ofFn fun i => (Uᵀ *ᵥ b) (Fin.castLE hnm i))).trans hlength)
  generalize Vec.toFn n (Line.solveRegular upper _) = z at hz
  generalize upper.zip (List.ofFn fun i => (Uᵀ *ᵥ b) (Fin.castLE hnm i)) = lines at hfst hsnd
  refine ⟨z, hz.symm, fun i => ?_, fun hzero => ?_⟩
  · rw [← hfst] at hlower
    rw [← hfst, ← hsnd] at hz
    exact h.mulVec_eq_or_row_eq_zero hnm hvanishes hlower hsnd hz i
  · rw [← hfst] at hlower
    rw [← hfst, ← hsnd] at hz
    have hvalues : ∀ a ∈ lineValues lines (List.ofFn z) 0, a = 0 := by
      rw [lineValues_ofFn hlower hsnd, transpose_transpose, hzero, zero_smul, add_zero]
      intro a ha
      obtain ⟨i, rfl⟩ := List.mem_ofFn.mp ha
      rfl
    rw [hz] at hvalues
    have hall := eq_zero_of_lineValues_solveRegular hvalues
    rw [← hz] at hall
    funext i
    exact hall _ (List.mem_ofFn.mpr ⟨i, rfl⟩)

/-- Without a diagonal the solution satisfies the normal equations, whatever the rank.  It is zero
if their right hand side is. -/
theorem Factors.solveUndamped_eq (h : Factors A f σ U) (hnm : n ≤ m)
    (hvanishes : Vanishes 0 f.pivots) (b : Fin m → ℝ) :
    ∃ x : Fin n → ℝ,
      (DampedSystem.ofFactorization f (List.ofFn b)).solveUndamped = List.ofFn x ∧
      (Aᵀ * A) *ᵥ x = Aᵀ *ᵥ b ∧ (Aᵀ *ᵥ b = 0 → x = 0) := by
  obtain ⟨z, hz, hrows, honly⟩ := h.mulVec_solveRegular hnm hvanishes b
  have hgram := h.transpose_mul_triangular hnm
  have hnormal := h.transpose_mulVec_rhs hnm b
  generalize (Uᵀ * A).submatrix (Fin.castLE hnm) σ = R at hrows honly hgram hnormal
  -- where the equations are not met the transpose does not see it
  have htransposed : Rᵀ *ᵥ (R *ᵥ z) = Rᵀ *ᵥ fun i => (Uᵀ *ᵥ b) (Fin.castLE hnm i) := by
    ext j
    change ∑ i, Rᵀ j i * (R *ᵥ z) i = ∑ i, Rᵀ j i * (Uᵀ *ᵥ b) (Fin.castLE hnm i)
    refine Finset.sum_congr rfl fun i _ => ?_
    rcases hrows i with hvalue | hzero
    · rw [hvalue]
    · rw [transpose_apply, hzero j, zero_mul, zero_mul]
  rw [hnormal] at htransposed
  refine ⟨z ∘ σ.symm, ?_, ?_, fun hzero => ?_⟩
  · rw [DampedSystem.solveUndamped, hz]
    rw [show (DampedSystem.ofFactorization f (List.ofFn b)).permutation = f.permutation from rfl,
      h.permutation, scatter_ofFn]
  · rw [mulVec_mulVec, hgram, submatrix_mulVec_equiv] at htransposed
    exact σ.surjective.injective_comp_right htransposed
  · rw [hzero, Pi.zero_comp, mulVec_mulVec, ← conjTranspose_eq_transpose_of_trivial,
      conjTranspose_mul_self_mulVec_eq_zero] at htransposed
    rw [honly htransposed]
    rfl

theorem Factors.diagonal_ne_zero (h : Factors A f σ U) (hnm : n ≤ m) (hrank : A.rank = n)
    {p : Pivot ℝ} (hp : p ∈ f.pivots) : p.diagonal ≠ 0 := by
  obtain ⟨i, hi, rfl⟩ := List.mem_iff_getElem.mp hp
  have hin : i < n := h.length_pivots ▸ hi
  rw [← h.diagonal_eq hnm ⟨i, hin⟩ hi]
  have hupper : ((Uᵀ * A).submatrix (Fin.castLE hnm) σ).IsUpperTriangular :=
    fun i j hij => h.entry_eq_zero hij
  have hgram := congrArg det (h.transpose_mul_triangular hnm)
  rw [det_mul, det_transpose, det_submatrix_equiv_self] at hgram
  have hunit : IsUnit (Aᵀ * A) := by
    rw [← linearIndependent_cols_iff_isUnit, linearIndependent_iff_card_eq_finrank_span,
      Set.finrank,
      ← rank_eq_finrank_span_cols, rank_transpose_mul_self, hrank, Fintype.card_fin]
  have hdet : ((Uᵀ * A).submatrix (Fin.castLE hnm) σ).det ≠ 0 := by
    intro hzero
    rw [hzero, mul_zero] at hgram
    exact ((isUnit_iff_isUnit_det _).mp hunit).ne_zero hgram.symm
  rw [det_of_isUpperTriangular hupper] at hdet
  exact Finset.prod_ne_zero_iff.mp hdet _ (Finset.mem_univ _)

end Factorization

/-! ## Least squares points -/

theorem residual_le_of_normal {m n : Nat} {A : Matrix (Fin m) (Fin n) ℝ} {b : Fin m → ℝ}
    {x : Fin n → ℝ} (h : (Aᵀ * A) *ᵥ x = Aᵀ *ᵥ b) (y : Fin n → ℝ) :
    (A *ᵥ x - b) ⬝ᵥ (A *ᵥ x - b) ≤ (A *ᵥ y - b) ⬝ᵥ (A *ᵥ y - b) := by
  have horthogonal : (A *ᵥ (y - x)) ⬝ᵥ (A *ᵥ x - b) = 0 := by
    rw [dotProduct_comm, dotProduct_mulVec, ← mulVec_transpose, mulVec_sub, mulVec_mulVec, h,
      sub_self, zero_dotProduct]
  have hsplit : A *ᵥ y - b = A *ᵥ (y - x) + (A *ᵥ x - b) := by
    rw [mulVec_sub]
    abel
  have hnonneg : 0 ≤ (A *ᵥ (y - x)) ⬝ᵥ (A *ᵥ (y - x)) := by
    rw [← Vec.dot_ofFn]
    exact Vec.dot_self_nonneg _
  rw [hsplit, add_dotProduct, dotProduct_add, dotProduct_add,
    dotProduct_comm (A *ᵥ x - b) (A *ᵥ (y - x)), horthogonal]
  linarith

end Minima
