import Minima.Proofs.Factorization.Leading

/-!
# Problems without full rank

A stack `[A; D]` of dependent columns has more than one least squares point.  The one that is
computed is found among the points that vanish from the first dependent column in pivot order on,
and among these it is a minimum.  Whether it is one among all points is decided by the columns of
`A` that are left out, since the diagonal does not couple them with the others.
-/

namespace Minima

open Matrix

variable {m n r : Nat}

/-! ## The cost and its minima -/

/-- The value of `|A x - b|² + |D x|²`. -/
noncomputable def dampedCost (A : Matrix (Fin m) (Fin n) ℝ) (d : Fin n → ℝ) (b : Fin m → ℝ)
    (x : Fin n → ℝ) : ℝ :=
  (A *ᵥ x - b) ⬝ᵥ (A *ᵥ x - b) + (d * x) ⬝ᵥ (d * x)

def Minimizes (A : Matrix (Fin m) (Fin n) ℝ) (d : Fin n → ℝ) (b : Fin m → ℝ) (x : Fin n → ℝ) :
    Prop :=
  ∀ y, dampedCost A d b x ≤ dampedCost A d b y

noncomputable def halfGradient (A : Matrix (Fin m) (Fin n) ℝ) (d : Fin n → ℝ) (b : Fin m → ℝ)
    (x : Fin n → ℝ) : Fin n → ℝ :=
  Aᵀ *ᵥ (A *ᵥ x - b) + d * (d * x)

section cost

variable {A : Matrix (Fin m) (Fin n) ℝ} {d : Fin n → ℝ} {b c : Fin m → ℝ} {x v : Fin n → ℝ}

theorem halfGradient_eq_normal (A : Matrix (Fin m) (Fin n) ℝ) (d : Fin n → ℝ) (b : Fin m → ℝ)
    (x : Fin n → ℝ) :
    halfGradient A d b x = (Aᵀ * A + diagonal d * diagonal d) *ᵥ x - Aᵀ *ᵥ b := by
  have hdiagonal : d * (d * x) = (diagonal d * diagonal d) *ᵥ x := by
    funext i
    rw [← mulVec_mulVec, mulVec_diagonal, mulVec_diagonal]
    rfl
  rw [halfGradient, hdiagonal, mulVec_sub, mulVec_mulVec, add_mulVec, sub_add_eq_add_sub]

theorem dotProduct_halfGradient (v : Fin n → ℝ) :
    v ⬝ᵥ halfGradient A d b x = (A *ᵥ v) ⬝ᵥ (A *ᵥ x - b) + (d * v) ⬝ᵥ (d * x) := by
  have hdiagonal : v ⬝ᵥ (d * (d * x)) = (d * v) ⬝ᵥ (d * x) :=
    Finset.sum_congr rfl fun i _ => by
      simp only [Pi.mul_apply]
      ring
  rw [halfGradient, dotProduct_add, hdiagonal, dotProduct_mulVec, vecMul_transpose]

theorem dampedCost_add (v : Fin n → ℝ) :
    dampedCost A d b (x + v) =
      dampedCost A d b x + 2 * (v ⬝ᵥ halfGradient A d b x) + dampedCost A d 0 v := by
  have hresidual : A *ᵥ (x + v) - b = (A *ᵥ x - b) + A *ᵥ v := by
    rw [mulVec_add]
    abel
  simp only [dampedCost, dotProduct_halfGradient, hresidual, mul_add, sub_zero, add_dotProduct,
    dotProduct_add, dotProduct_comm (A *ᵥ x - b) (A *ᵥ v), dotProduct_comm (d * x) (d * v)]
  ring

theorem dampedCost_nonneg (A : Matrix (Fin m) (Fin n) ℝ) (d : Fin n → ℝ) (b : Fin m → ℝ)
    (x : Fin n → ℝ) : 0 ≤ dampedCost A d b x := by
  rw [dampedCost, ← Vec.dot_ofFn, ← Vec.dot_ofFn]
  exact add_nonneg (Vec.dot_self_nonneg _) (Vec.dot_self_nonneg _)

theorem dampedCost_smul (t : ℝ) (v : Fin n → ℝ) :
    dampedCost A d 0 (t • v) = t * t * dampedCost A d 0 v := by
  simp only [dampedCost, sub_zero, mulVec_smul, mul_smul_comm, smul_dotProduct, dotProduct_smul,
    smul_eq_mul]
  ring

theorem minimizes_iff : Minimizes A d b x ↔ halfGradient A d b x = 0 := by
  constructor
  · intro hminimal
    generalize hg : halfGradient A d b x = g
    -- a short step against the derivative
    have hstep : ∀ t : ℝ, 0 ≤ t * (t * dampedCost A d 0 g - 2 * (g ⬝ᵥ g)) := by
      intro t
      have hcost := hminimal (x + (-t) • g)
      rw [dampedCost_add, dampedCost_smul, hg, smul_dotProduct, smul_eq_mul] at hcost
      linarith
    have hnonneg := dampedCost_nonneg A d 0 g
    have hsquare : 0 ≤ g ⬝ᵥ g := by
      rw [← Vec.dot_ofFn]
      exact Vec.dot_self_nonneg _
    by_contra hne
    have hpos : 0 < g ⬝ᵥ g :=
      lt_of_le_of_ne hsquare fun h => hne (dotProduct_self_eq_zero.mp h.symm)
    have hlength : 0 < g ⬝ᵥ g / (dampedCost A d 0 g + 1) := by positivity
    have hshort : g ⬝ᵥ g / (dampedCost A d 0 g + 1) * dampedCost A d 0 g ≤ g ⬝ᵥ g := by
      rw [div_mul_eq_mul_div, div_le_iff₀ (by linarith)]
      nlinarith
    have hsum := nonneg_of_mul_nonneg_right (hstep _) hlength
    linarith
  · intro hzero y
    have hcost := dampedCost_add (A := A) (d := d) (b := b) (x := x) (y - x)
    rw [add_sub_cancel, hzero, dotProduct_zero, mul_zero, add_zero] at hcost
    rw [hcost]
    exact le_add_of_nonneg_right (dampedCost_nonneg A d 0 (y - x))

end cost

/-! ## Points on the leading columns -/

/-- A point that vanishes from column `r` on and at which the cost has no slope along the columns
in front of it. -/
structure LeadingSolution (A : Matrix (Fin m) (Fin n) ℝ) (d : Fin n → ℝ) (r : Nat) (b : Fin m → ℝ)
    (x : Fin n → ℝ) : Prop where
  vanishes : ∀ j : Fin n, r ≤ j → x j = 0
  halfGradient_eq_zero : ∀ i : Fin n, i < r → halfGradient A d b x i = 0

namespace LeadingSolution

variable {A : Matrix (Fin m) (Fin n) ℝ} {d : Fin n → ℝ} {b c : Fin m → ℝ} {x y : Fin n → ℝ}

theorem dotProduct_halfGradient (h : LeadingSolution A d r b x) {v : Fin n → ℝ}
    (hv : ∀ j : Fin n, r ≤ j → v j = 0) : v ⬝ᵥ halfGradient A d b x = 0 := by
  refine Finset.sum_eq_zero fun i _ => ?_
  rcases lt_or_ge (i : Nat) r with hi | hi
  · rw [h.halfGradient_eq_zero i hi, mul_zero]
  · rw [hv i hi, zero_mul]

theorem dampedCost_le (h : LeadingSolution A d r b x) (hy : ∀ j : Fin n, r ≤ j → y j = 0) :
    dampedCost A d b x ≤ dampedCost A d b y := by
  have hslope := h.dotProduct_halfGradient (v := y - x) fun j hj => by
    rw [Pi.sub_apply, hy j hj, h.vanishes j hj, sub_zero]
  have hcost := dampedCost_add (A := A) (d := d) (b := b) (x := x) (y - x)
  rw [add_sub_cancel, hslope, mul_zero, add_zero] at hcost
  rw [hcost]
  exact le_add_of_nonneg_right (dampedCost_nonneg A d 0 (y - x))

theorem halfGradient_eq (h : LeadingSolution A d r b x) {j : Fin n} (hj : r ≤ j) :
    halfGradient A d b x j = A.col j ⬝ᵥ (A *ᵥ x - b) := by
  rw [halfGradient, Pi.add_apply, Pi.mul_apply, Pi.mul_apply, h.vanishes j hj, mul_zero, mul_zero,
    add_zero]
  rfl

/-- The columns that are left out decide whether the point is a minimum. -/
theorem minimizes_iff_orthogonal (h : LeadingSolution A d r b x) :
    Minimizes A d b x ↔ ∀ j : Fin n, r ≤ j → A.col j ⬝ᵥ (A *ᵥ x - b) = 0 := by
  rw [minimizes_iff]
  constructor
  · intro hzero j hj
    rw [← h.halfGradient_eq hj, hzero, Pi.zero_apply]
  · intro horthogonal
    funext j
    rcases lt_or_ge (j : Nat) r with hj | hj
    · exact h.halfGradient_eq_zero j hj
    · exact (h.halfGradient_eq hj).trans (horthogonal j hj)

theorem reciprocal (hx : LeadingSolution A d r b x) (hy : LeadingSolution A d r c y) :
    (A *ᵥ x) ⬝ᵥ c = (A *ᵥ y) ⬝ᵥ b := by
  have hxy := hy.dotProduct_halfGradient hx.vanishes
  have hyx := hx.dotProduct_halfGradient hy.vanishes
  rw [Minima.dotProduct_halfGradient, dotProduct_sub] at hxy hyx
  rw [dotProduct_comm (A *ᵥ y), dotProduct_comm (d * y)] at hyx
  linarith

end LeadingSolution

section everyRhs

variable {A : Matrix (Fin m) (Fin n) ℝ} {d : Fin n → ℝ} {x : (Fin m → ℝ) → Fin n → ℝ}

theorem mem_span_of_orthogonal (h : ∀ b, LeadingSolution A d r b (x b)) {j : Fin n}
    (horthogonal : ∀ b, A.col j ⬝ᵥ (A *ᵥ x b - b) = 0) :
    A.col j ∈ Submodule.span ℝ (A.col '' {i | (i : Nat) < r ∧ d i = 0}) := by
  have hw := h (A.col j)
  generalize x (A.col j) = w at hw
  have hcolumn : A *ᵥ w = A.col j := by
    rw [← sub_eq_zero, ← dotProduct_self_eq_zero]
    have hb := horthogonal (A *ᵥ w - A.col j)
    rw [dotProduct_sub, dotProduct_comm, (h _).reciprocal hw, ← sub_dotProduct] at hb
    exact hb
  refine mem_span_col_iff.mpr ⟨w, fun i hi => ?_, hcolumn⟩
  rcases lt_or_ge (i : Nat) r with hir | hir
  · have hslope := hw.halfGradient_eq_zero i hir
    rw [halfGradient, hcolumn, sub_self, mulVec_zero, zero_add, Pi.mul_apply, Pi.mul_apply,
      mul_eq_zero, mul_eq_zero, or_iff_right_of_imp Or.inl] at hslope
    exact hslope.resolve_left fun hdi => hi ⟨hir, hdi⟩
  · exact hw.vanishes i hir

theorem orthogonal_of_mem_span {b : Fin m → ℝ} {z : Fin n → ℝ} (h : LeadingSolution A d r b z)
    {y : Fin m → ℝ} (hy : y ∈ Submodule.span ℝ (A.col '' {i | (i : Nat) < r ∧ d i = 0})) :
    y ⬝ᵥ (A *ᵥ z - b) = 0 := by
  obtain ⟨v, hv, rfl⟩ := mem_span_col_iff.mp hy
  have hslope := h.dotProduct_halfGradient (v := v) fun j hj => hv j fun hmem => hj.not_gt hmem.1
  -- the diagonal does not see the combination
  have hdiagonal : d * v = 0 := by
    funext i
    by_cases hi : d i = 0
    · rw [Pi.mul_apply, hi, zero_mul, Pi.zero_apply]
    · rw [Pi.mul_apply, hv i fun hmem => hi hmem.2, mul_zero, Pi.zero_apply]
  rwa [Minima.dotProduct_halfGradient, hdiagonal, zero_dotProduct, add_zero] at hslope

theorem minimizes_every_iff (h : ∀ b, LeadingSolution A d r b (x b)) :
    (∀ b, Minimizes A d b (x b)) ↔ ∀ j : Fin n, r ≤ j →
      A.col j ∈ Submodule.span ℝ (A.col '' {i | (i : Nat) < r ∧ d i = 0}) := by
  simp only [fun b => (h b).minimizes_iff_orthogonal]
  exact ⟨fun horthogonal j hj => mem_span_of_orthogonal h fun b => horthogonal b j hj,
    fun hspan b j hj => orthogonal_of_mem_span (h b) (hspan j hj)⟩

end everyRhs

/-! ## The computed point -/

section pivotOrder

variable {A : Matrix (Fin m) (Fin n) ℝ} {d : Fin n → ℝ} {b : Fin m → ℝ}

theorem submatrix_mulVec_comp (σ : Equiv.Perm (Fin n)) (x : Fin n → ℝ) :
    A.submatrix id σ *ᵥ (x ∘ σ) = A *ᵥ x := by
  rw [submatrix_mulVec_equiv, Function.comp_assoc, Equiv.self_comp_symm, Function.comp_id,
    Function.comp_id]

theorem dampedCost_pivotOrder (σ : Equiv.Perm (Fin n)) (x : Fin n → ℝ) :
    dampedCost (A.submatrix id σ) (d ∘ σ) b (x ∘ σ) = dampedCost A d b x := by
  have hdiagonal : (d ∘ σ * x ∘ σ) ⬝ᵥ (d ∘ σ * x ∘ σ) = (d * x) ⬝ᵥ (d * x) :=
    comp_equiv_dotProduct_comp_equiv (d * x) (d * x) σ
  rw [dampedCost, submatrix_mulVec_comp, hdiagonal, dampedCost]

theorem minimizes_pivotOrder (σ : Equiv.Perm (Fin n)) (x : Fin n → ℝ) :
    Minimizes (A.submatrix id σ) (d ∘ σ) b (x ∘ σ) ↔ Minimizes A d b x := by
  rw [Minimizes, Minimizes, dampedCost_pivotOrder]
  constructor
  · intro h y
    rw [← dampedCost_pivotOrder σ y]
    exact h (y ∘ σ)
  · intro h y
    have hy := h (y ∘ σ.symm)
    rwa [← dampedCost_pivotOrder σ (y ∘ σ.symm), Function.comp_assoc, Equiv.symm_comp_self,
      Function.comp_id] at hy

end pivotOrder

namespace DampedSystem

theorem padded_ofMatrix (pivoting : Bool) (A : Matrix (Fin m) (Fin n) ℝ) (b : Fin m → ℝ) :
    padded pivoting (.ofMatrix A) (List.ofFn b) =
      ofFactorization (Factorization.factor .plain pivoting (.ofMatrix (DenseMatrix.pad (n - m) A)))
        (List.ofFn (Fin.append b fun _ : Fin (n - m) => 0)) := by
  rw [padded, DenseMatrix.width_ofMatrix, DenseMatrix.rows_ofMatrix, DenseMatrix.padRows_ofMatrix,
    Vec.zeros_eq_ofFn, List.ofFn_fin_append]

theorem absorbDiagonal_of_zeros {diagonal : Vec ℝ} (h : ∀ a ∈ diagonal, a = 0)
    (lines : List (Line ℝ × ℝ)) : absorbDiagonal diagonal lines = lines := by
  induction diagonal generalizing lines with
  | nil => cases lines <;> rfl
  | cons a diagonal ih =>
      obtain ⟨rfl, hrest⟩ := List.forall_mem_cons.mp h
      cases lines with
      | nil => rfl
      | cons line lines => simp [absorbDiagonal, ih hrest]

theorem solve_of_zeros {s : DampedSystem ℝ} (hlength : s.upper.length = s.rhs.length)
    {diagonal : Vec ℝ} (h : ∀ a ∈ diagonal, a = 0) : (s.solve diagonal).1 = s.solveUndamped := by
  have hgather : ∀ a ∈ gather s.permutation diagonal, a = 0 := by
    intro a ha
    obtain ⟨i, -, rfl⟩ := List.mem_map.mp ha
    rw [List.getD_eq_getElem?_getD]
    cases hi : diagonal[i]? with
    | none => rfl
    | some a => exact h a (List.mem_of_getElem? hi)
  have hlines : (Head.lines s.upper).length = s.rhs.length := by
    rw [Head.lines, length_linesFrom, hlength]
  rw [solve, absorbDiagonal_of_zeros hgather, List.map_fst_zip hlines.le,
    List.map_snd_zip hlines.ge, solveUndamped]

end DampedSystem

theorem leastSquares_ofMatrix (pivoting : Bool) (A : Matrix (Fin m) (Fin n) ℝ) (b : Fin m → ℝ)
    (d : Option (Fin n → ℝ)) :
    leastSquares .plain pivoting (.ofMatrix A) (List.ofFn b) (d.map List.ofFn) =
      .ok ((DampedSystem.padded pivoting (.ofMatrix A) (List.ofFn b)).solve
        (List.ofFn (d.getD 0))).1 := by
  have hd : (d.map List.ofFn).getD (Vec.zeros n) = List.ofFn (d.getD 0) := by
    cases d with
    | none => exact Vec.zeros_eq_ofFn n
    | some d => rfl
  simp only [leastSquares, DenseMatrix.width_ofMatrix, DenseMatrix.rows_ofMatrix, hd,
    List.length_ofFn, ne_eq, not_true_eq_false, if_false, DampedSystem.padded]

namespace Factorization.Factors

variable {A : Matrix (Fin m) (Fin n) ℝ} {f : Factorization ℝ} {σ : Equiv.Perm (Fin n)}

theorem length_upper {U : Matrix (Fin m) (Fin m) ℝ} (h : Factors A f σ U) (hnm : n ≤ m)
    (b : Fin m → ℝ) :
    (DampedSystem.ofFactorization f (List.ofFn b)).upper.length =
      (DampedSystem.ofFactorization f (List.ofFn b)).rhs.length := by
  rw [h.rhs_ofFactorization hnm, List.length_ofFn, DampedSystem.ofFactorization, List.length_map,
    h.length_pivots]

variable {U : Matrix (Fin (m + (n - m))) (Fin (m + (n - m))) ℝ}

theorem exists_leadingSolution (h : Factors (DenseMatrix.pad (n - m) A) f σ U) (b : Fin m → ℝ)
    (d : Fin n → ℝ) :
    ∃ (r : Nat) (x : Fin n → ℝ),
      ((DampedSystem.ofFactorization f
        (List.ofFn (Fin.append b fun _ : Fin (n - m) => 0))).solve (List.ofFn d)).1 = List.ofFn x ∧
      LeadingColumns ((fromRows A (diagonal d)).submatrix id σ) r ∧
      LeadingSolution (A.submatrix id σ) (d ∘ σ) r b (x ∘ σ) := by
  obtain ⟨lines, L, c, hlines, hL, hc, hgram, hrhs, -⟩ :=
    h.exists_lower (by omega) (Fin.append b fun _ => 0) d
  rw [DenseMatrix.transpose_pad_mul_pad] at hgram
  rw [DenseMatrix.transpose_pad_mulVec] at hrhs
  have hstack : ((fromRows A (diagonal d)).submatrix id σ)ᵀ *
      (fromRows A (diagonal d)).submatrix id σ = L * Lᵀ := by
    rw [hgram, ← diagonal_transpose d, ← fromCols_mul_fromRows, ← transpose_fromRows,
      diagonal_transpose]
    rfl
  have hstops := stopsAt_of_lowerMatrix hL
  obtain ⟨z, hz, hzero, hvalue⟩ := exists_solveRegular hL hc
  refine ⟨_, z ∘ σ.symm, ?_, leadingColumns_of_lowerMatrix hL hstack.symm, ?_⟩
  · rw [DampedSystem.solve, show (DampedSystem.ofFactorization f _).permutation = f.permutation
      from rfl, hlines, hz, h.permutation, scatter_ofFn]
  · rw [Function.comp_assoc, Equiv.symm_comp_self, Function.comp_id]
    refine ⟨hzero, fun i hi => ?_⟩
    -- the triangle passes on what vanishes in front
    have hslope : halfGradient (A.submatrix id σ) (d ∘ σ) b z = L *ᵥ (Lᵀ *ᵥ z - c) := by
      rw [halfGradient_eq_normal, mulVec_sub, mulVec_mulVec, hgram, hrhs, submatrix_add,
        diagonal_mul_diagonal, diagonal_mul_diagonal, Pi.add_apply, Pi.add_apply,
        submatrix_diagonal_equiv]
      rfl
    rw [hslope]
    exact hstops.mulVec_eq_zero (fun k hk => sub_eq_zero.mpr (hvalue k hk)) hi

end Factorization.Factors

/-- Whatever the rank, the point that is computed minimises the cost among the points that vanish
from the first dependent column in pivot order on.  It is a minimum if the residual is orthogonal
to the columns that are left out, and for every right hand side if these are combinations of the
leading columns without damping.  With pivoting and without a diagonal it always is. -/
theorem leastSquares_minimizes_iff (A : Matrix (Fin m) (Fin n) ℝ) (pivoting : Bool)
    (d : Option (Fin n → ℝ)) :
    ∃ (σ : Equiv.Perm (Fin n)) (r : Nat) (x : (Fin m → ℝ) → Fin n → ℝ),
      (decompose .plain pivoting (.ofMatrix A)).permutation = List.ofFn (fun j => (σ j : Nat)) ∧
      LeadingColumns ((fromRows A (diagonal (d.getD 0))).submatrix id σ) r ∧
      (∀ b, leastSquares .plain pivoting (.ofMatrix A) (List.ofFn b) (d.map List.ofFn) =
          .ok (List.ofFn (x b)) ∧
        (∀ j : Fin n, r ≤ j → x b (σ j) = 0) ∧
        (∀ y, (∀ j : Fin n, r ≤ j → y (σ j) = 0) →
          dampedCost A (d.getD 0) b (x b) ≤ dampedCost A (d.getD 0) b y) ∧
        (Minimizes A (d.getD 0) b (x b) ↔
          ∀ j : Fin n, r ≤ j → A.col (σ j) ⬝ᵥ (A *ᵥ x b - b) = 0)) ∧
      ((∀ b, Minimizes A (d.getD 0) b (x b)) ↔ ∀ j : Fin n, r ≤ j →
        A.col (σ j) ∈ Submodule.span ℝ
          ((fun i => A.col (σ i)) '' {i | (i : Nat) < r ∧ d.getD 0 (σ i) = 0})) ∧
      (pivoting = true → d.getD 0 = 0 → ∀ b, Minimizes A (d.getD 0) b (x b)) := by
  have hnm : n ≤ m + (n - m) := by omega
  obtain ⟨σ, U, -, h⟩ :=
    Factorization.exists_factors pivoting (DenseMatrix.pad (n - m) A) hnm
  choose r x hx hcolumns hsolution using fun b => h.exists_leadingSolution b (d.getD 0)
  -- the number of leading columns does not depend on the right hand side
  have hr (b : Fin m → ℝ) : r b = r 0 := (hcolumns b).unique (hcolumns 0)
  simp only [hr] at hsolution
  refine ⟨σ, r 0, x, ?_, hcolumns 0, fun b => ⟨?_, ?_, ?_, ?_⟩, ?_, ?_⟩
  · rw [decompose, DenseMatrix.width_ofMatrix, DenseMatrix.padRows_ofMatrix]
    exact h.permutation
  · rw [leastSquares_ofMatrix, DampedSystem.padded_ofMatrix, hx]
  · exact (hsolution b).vanishes
  · intro y hy
    rw [← dampedCost_pivotOrder σ, ← dampedCost_pivotOrder σ y]
    exact (hsolution b).dampedCost_le hy
  · rw [← minimizes_pivotOrder σ, (hsolution b).minimizes_iff_orthogonal, submatrix_mulVec_comp]
    rfl
  · rw [← forall_congr' fun b => minimizes_pivotOrder σ (x b)]
    exact minimizes_every_iff hsolution
  · rintro rfl hd b
    rw [hd] at hx ⊢
    obtain ⟨y, hundamped, hnormal, -⟩ :=
      h.solveUndamped_eq hnm (Factorization.vanishes_factor _ hnm) (Fin.append b fun _ => 0)
    rw [DenseMatrix.transpose_pad_mul_pad, DenseMatrix.transpose_pad_mulVec] at hnormal
    have hsame := hx b
    rw [DampedSystem.solve_of_zeros (h.length_upper hnm _) (by simp), hundamped] at hsame
    have hgram : Aᵀ * A + diagonal 0 * diagonal 0 = Aᵀ * A := by simp
    rw [← List.ofFn_injective hsame, minimizes_iff, halfGradient_eq_normal, hgram, hnormal,
      sub_self]

/-! ## A left out column that counts -/

section coupled

private theorem permutation_coupled (pivoting : Bool) :
    (Factorization.factor .plain pivoting
      (.ofMatrix (DenseMatrix.pad 2 !![(4 : ℝ), 0, 1]))).permutation = [0, 1, 2] := by
  have hcolumns : DenseMatrix.ofMatrix (DenseMatrix.pad 2 !![(4 : ℝ), 0, 1]) =
      ⟨3, [[4, 0, 0], [0, 0, 0], [1, 0, 0]]⟩ := by
    rw [← DenseMatrix.padRows_ofMatrix 3]
    simp [DenseMatrix.padRows, DenseMatrix.ofMatrix, Vec.zeros, List.replicate_succ]
  have hlength : Norm.length .plain [(4 : ℝ), 0, 0] = 4 := by simp [Norm.length, Vec.norm, ← sq]
  have hlast : Norm.length .plain [(1 : ℝ), 0, 0] = 1 := by simp [Norm.length, Vec.norm]
  have hzero : Norm.length .plain [(0 : ℝ), 0, 0] = 0 := by simp [Norm.length, Vec.norm]
  have hrest : Norm.length .plain [(0 : ℝ), 0] = 0 := by simp [Norm.length, Vec.norm]
  -- one reflection leaves nothing to choose from
  have hreflector : Factorization.reflectorOf .plain [(4 : ℝ), 0, 0] = (-4, [2, 0, 0]) := by
    norm_num [Factorization.reflectorOf, hlength, Vec.divide]
  have hsecond : Factorization.Column.advance .plain [2, 0, 0] ⟨1, [], [(0 : ℝ), 0, 0], 0, 0⟩ =
      ⟨1, [0], [0, 0], 0, 0⟩ := by
    simp [Factorization.Column.advance, reflect, Factorization.shortened]
  have hthird : Factorization.Column.advance .plain [2, 0, 0] ⟨2, [], [(1 : ℝ), 0, 0], 1, 1⟩ =
      ⟨2, [-1], [0, 0], 0, 0⟩ := by
    norm_num [Factorization.Column.advance, reflect, Factorization.shortened, hrest, Scalar.square,
      Scalar.epsilon]
  rw [hcolumns, Factorization.factor, Factorization.permutation]
  cases pivoting <;>
    norm_num [Factorization.reduce, Vec.argmax, Vec.argmax.go, Factorization.swapFront, hlength,
      hlast, hzero, hreflector, hsecond, hthird, hrest, Factorization.Column.skip]

private theorem leadingColumns_coupled :
    LeadingColumns (fromRows !![(4 : ℝ), 0, 1] (diagonal ![3, 0, 0])) 1 := by
  have hleading : {i : Fin 3 | (i : Nat) < 1} = {0} := by
    ext i
    rw [Set.mem_ofPred_eq, Set.mem_singleton_iff, Fin.ext_iff, Nat.lt_one_iff, Fin.val_zero]
  refine ⟨by norm_num, ?_, fun j hj => ?_⟩
  · rw [hleading, linearIndepOn_singleton_iff]
    intro hzero
    have hentry : (4 : ℝ) = 0 := congrFun hzero (Sum.inl 0)
    norm_num at hentry
  · obtain rfl : j = 1 := Fin.ext hj
    have hzero : (fromRows !![(4 : ℝ), 0, 1] (diagonal ![3, 0, 0])).col 1 = 0 := by
      ext i
      rcases i with i | i <;> fin_cases i <;> simp
    rw [hzero]
    exact Submodule.zero_mem _

private theorem leastSquares_coupled (pivoting : Bool) :
    leastSquares .plain pivoting (.ofMatrix !![(4 : ℝ), 0, 1]) (List.ofFn ![25])
      ((some ![3, 0, 0]).map List.ofFn) = .ok (List.ofFn ![4, 0, 0]) := by
  obtain ⟨σ, U, -, h⟩ := Factorization.exists_factors pivoting
    (DenseMatrix.pad 2 !![(4 : ℝ), 0, 1]) (by norm_num)
  obtain rfl : σ = 1 := by
    have hσ := h.permutation
    rw [permutation_coupled] at hσ
    simp only [List.ofFn_succ, List.ofFn_zero, List.cons.injEq] at hσ
    obtain ⟨hfirst, hsecond, hthird, -⟩ := hσ
    ext j
    fin_cases j
    · exact hfirst.symm
    · exact hsecond.symm
    · exact hthird.symm
  obtain ⟨r, x, hx, hcolumns, hsolution⟩ := h.exists_leadingSolution ![25] ![3, 0, 0]
  obtain rfl : r = 1 := hcolumns.unique leadingColumns_coupled
  have hslope := hsolution.halfGradient_eq_zero 0 one_pos
  have hsecond : x 1 = 0 := hsolution.vanishes 1 le_rfl
  have hthird : x 2 = 0 := hsolution.vanishes 2 one_le_two
  have hfirst : x 0 = 4 := by
    simp [halfGradient, mulVec, dotProduct, Fin.sum_univ_three, hsecond, hthird] at hslope
    linarith
  rw [leastSquares_ofMatrix, DampedSystem.padded_ofMatrix]
  have hpoint : x = ![4, 0, 0] := by
    ext j
    fin_cases j
    · exact hfirst
    · exact hsecond
    · exact hthird
  rw [← hpoint]
  exact congrArg _ hx

/-- The third column is left out with the second, although the damped first one does not make up
for it. -/
theorem leastSquares_misses_minimum :
    (fromRows !![(4 : ℝ), 0, 1] (diagonal ((some ![3, 0, 0]).getD 0))).rank ≠ 3 ∧
      leastSquares .plain true (.ofMatrix !![(4 : ℝ), 0, 1]) (List.ofFn ![25])
        ((some ![3, 0, 0]).map List.ofFn) = .ok (List.ofFn ![4, 0, 0]) ∧
      leastSquares .plain false (.ofMatrix !![(4 : ℝ), 0, 1]) (List.ofFn ![25])
        ((some ![3, 0, 0]).map List.ofFn) = .ok (List.ofFn ![4, 0, 0]) ∧
      ¬Minimizes !![(4 : ℝ), 0, 1] ((some ![3, 0, 0]).getD 0) ![25] ![4, 0, 0] := by
  refine ⟨?_, leastSquares_coupled true, leastSquares_coupled false, fun hminimal => ?_⟩
  · rw [ne_eq, rank_fromRows_diagonal_iff, isUnit_iff_isUnit_det]
    simp [det_fin_three, mul_apply]
  · have hcost := hminimal ![0, 0, 25]
    simp [dampedCost, dotProduct, Fin.sum_univ_three] at hcost
    norm_num at hcost

end coupled

end Minima
