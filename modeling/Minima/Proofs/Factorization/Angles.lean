import Mathlib.Order.Bounds.Basic
import Minima.Proofs.Factorization.Damped

/-!
# Lengths and angles of the factored matrix

The triangle keeps the columns only in pivot order and reflected, the column lengths are in the
order of the matrix.  Together they give the length of an image under the matrix and the largest
cosine between a column and the right hand side.
-/

namespace Minima

open Matrix

variable {m n : Nat} {A : Matrix (Fin m) (Fin n) ℝ} {f : Factorization ℝ} {σ : Equiv.Perm (Fin n)}
  {U : Matrix (Fin m) (Fin m) ℝ}

/-! ## The length of an image -/

namespace DampedSystem

theorem imageLength_go_eq (lines : List (Line ℝ × ℝ)) (x : Vec ℝ) :
    imageLength.go (lines.map (·.1)) x = lineValues lines x 0 := by
  induction lines generalizing x with
  | nil => simp [imageLength.go]
  | cons line lines ih =>
      cases x with
      | nil => simp [imageLength.go, lineValues]
      | cons a x => rw [List.map_cons, imageLength.go, ih, lineValues, mul_zero, add_zero]

end DampedSystem

namespace Factorization.Factors

/-- The triangle takes a point in pivot order to an image of the same length. -/
theorem dotProduct_triangular (h : Factors A f σ U) (hnm : n ≤ m) (x : Fin n → ℝ) :
    ((Uᵀ * A).submatrix (Fin.castLE hnm) σ *ᵥ (x ∘ σ)) ⬝ᵥ
        ((Uᵀ * A).submatrix (Fin.castLE hnm) σ *ᵥ (x ∘ σ)) = (A *ᵥ x) ⬝ᵥ (A *ᵥ x) := by
  have hgram := h.transpose_mul_triangular hnm
  generalize (Uᵀ * A).submatrix (Fin.castLE hnm) σ = R at hgram
  calc (R *ᵥ (x ∘ σ)) ⬝ᵥ (R *ᵥ (x ∘ σ))
      = (x ∘ σ) ⬝ᵥ ((Rᵀ * R) *ᵥ (x ∘ σ)) := by
        rw [← mulVec_mulVec, dotProduct_mulVec (x ∘ σ), vecMul_transpose]
    _ = (x ∘ σ) ⬝ᵥ (((Aᵀ * A) *ᵥ x) ∘ σ) := by
        rw [hgram, submatrix_mulVec_equiv, Function.comp_assoc, Equiv.self_comp_symm,
          Function.comp_id]
    _ = (A *ᵥ x) ⬝ᵥ (A *ᵥ x) := by
        rw [comp_equiv_dotProduct_comp_equiv, ← mulVec_mulVec, dotProduct_mulVec x,
          vecMul_transpose]

theorem imageLength_eq (h : Factors A f σ U) (hnm : n ≤ m) (b : Vec ℝ) (x : Fin n → ℝ) :
    (DampedSystem.ofFactorization f b).imageLength .plain (List.ofFn x) =
      √((A *ᵥ x) ⬝ᵥ (A *ᵥ x)) := by
  have hlower := h.lowerMatrix_lines hnm b
  have hlength : (Head.lines (DampedSystem.ofFactorization f b).upper).length = n := by
    simp [Head.lines, length_linesFrom, DampedSystem.ofFactorization, h.length_pivots]
  have hgather : gather (DampedSystem.ofFactorization f b).permutation (List.ofFn x) =
      List.ofFn (x ∘ σ) := by
    rw [← gather_ofFn, ← h.permutation]
    rfl
  -- the lines are read without a right hand side
  have hlines : Head.lines (DampedSystem.ofFactorization f b).upper =
      ((Head.lines (DampedSystem.ofFactorization f b).upper).map fun l => (l, (0 : ℝ))).map
        (·.1) := by
    simp [Function.comp_def]
  have hzeros : ((Head.lines (DampedSystem.ofFactorization f b).upper).map
      fun l => (l, (0 : ℝ))).map (·.2) = List.ofFn (0 : Fin n → ℝ) := by
    simp [Function.comp_def, hlength, Pi.zero_def]
  rw [hlines] at hlower
  rw [DampedSystem.imageLength, hgather, hlines, DampedSystem.imageLength_go_eq,
    lineValues_ofFn hlower hzeros, transpose_transpose, zero_smul, add_zero, Norm.length, Vec.norm,
    Vec.dot_ofFn, h.dotProduct_triangular hnm, Scalar.sqrt_real]

end Factorization.Factors

/-! ## The largest cosine -/

theorem isGreatest_insert_max {S : Set ℝ} {a b c : ℝ} (h : IsGreatest (insert (max a b) S) c) :
    IsGreatest (insert a (insert b S)) c := by
  have hmax : max a b ≤ c := h.2 (Set.mem_insert _ _)
  refine ⟨?_, ?_⟩
  · rcases h.1 with rfl | hc
    · rcases max_choice a b with hchoice | hchoice
      · exact .inl hchoice
      · exact .inr (.inl hchoice)
    · exact .inr (.inr hc)
  · rintro q (rfl | rfl | hq)
    · exact (le_max_left _ _).trans hmax
    · exact (le_max_right _ _).trans hmax
    · exact h.2 (.inr hq)

namespace DampedSystem

theorem maxCosine_go_spec (s : DampedSystem ℝ) (length largest : ℝ)
    (columns : List (Head ℝ × ℝ)) :
    ∃ c, maxCosine.go s length largest columns = some c ∧
      IsGreatest (insert largest {q | ∃ p ∈ columns, p.2 ≠ 0 ∧
        |Vec.dot (p.1.above ++ [p.1.diagonal]) (Vec.divide s.rhs length) / p.2| = q}) c := by
  induction columns generalizing largest with
  | nil => exact ⟨largest, rfl, by simp⟩
  | cons column columns ih =>
      obtain ⟨head, norm⟩ := column
      by_cases hnorm : norm = 0
      · obtain ⟨c, hgo, hgreatest⟩ := ih largest
        refine ⟨c, by simpa [maxCosine.go, hnorm] using hgo, ?_⟩
        simpa [hnorm] using hgreatest
      · obtain ⟨c, hgo, hgreatest⟩ := ih (max largest
          |Vec.dot (head.above ++ [head.diagonal]) (Vec.divide s.rhs length) / norm|)
        refine ⟨c, ?_, ?_⟩
        · simpa [maxCosine.go, maxCosine.rhs, hnorm, Scalar.isUndefined] using hgo
        · have hinsert := isGreatest_insert_max hgreatest
          simpa [hnorm, Set.insert_def, eq_comm] using hinsert

end DampedSystem

/-- The absolute cosines of the angles between the columns of a matrix other than zero and a
vector of the given length. -/
def cosines (A : Matrix (Fin m) (Fin n) ℝ) (b : Fin m → ℝ) (length : ℝ) : Set ℝ :=
  {q | ∃ i, A.col i ≠ 0 ∧ |A.col i ⬝ᵥ b| / (√(A.col i ⬝ᵥ A.col i) * length) = q}

theorem Factorization.columnNorms_factor (pivoting : Bool) (A : Matrix (Fin m) (Fin n) ℝ) :
    (factor .plain pivoting (.ofMatrix A)).columnNorms =
      List.ofFn fun j => √(A.col j ⬝ᵥ A.col j) := by
  apply List.ext_getElem
  · simp [factor, DenseMatrix.ofMatrix]
  · intro j _ _
    simp only [factor, DenseMatrix.ofMatrix, List.getElem_map, List.getElem_zipIdx,
      List.getElem_ofFn, Norm.length, Vec.norm, Vec.dot_ofFn, Scalar.sqrt_real]
    rfl

namespace Factorization.Factors

theorem dot_head (h : Factors A f σ U) (hnm : n ≤ m) (b : Fin m → ℝ) (j : Fin n)
    (hj : (j : Nat) < f.pivots.length) :
    Vec.dot (f.pivots[(j : Nat)].above ++ [f.pivots[(j : Nat)].diagonal])
        (List.ofFn fun i => (Uᵀ *ᵥ b) (Fin.castLE hnm i)) = A.col (σ j) ⬝ᵥ b := by
  have hcolumn := h.column_triangular hnm j hj
  have hnormal := congrFun (h.transpose_mulVec_rhs hnm b) j
  rw [List.append_cons] at hcolumn
  rw [Vec.dot_comm, ← Vec.dot_append_zeros _ _ (n - (j + 1)), hcolumn, Vec.dot_comm, Vec.dot_ofFn]
  exact hnormal

theorem mem_columns_iff (h : Factors A f σ U) (b : Vec ℝ) {norms : Fin n → ℝ}
    (hnorms : f.columnNorms = List.ofFn norms) (p : Head ℝ × ℝ) :
    p ∈ (DampedSystem.ofFactorization f b).upper.zip
        (gather (DampedSystem.ofFactorization f b).permutation
          (DampedSystem.ofFactorization f b).columnNorms) ↔
      ∃ (j : Fin n) (hj : (j : Nat) < f.pivots.length),
        p = (⟨f.pivots[(j : Nat)].above, f.pivots[(j : Nat)].diagonal⟩, norms (σ j)) := by
  have hgather : gather (DampedSystem.ofFactorization f b).permutation
      (DampedSystem.ofFactorization f b).columnNorms = List.ofFn (norms ∘ σ) := by
    rw [← gather_ofFn, ← h.permutation, ← hnorms]
    rfl
  rw [hgather, List.mem_iff_getElem]
  constructor
  · rintro ⟨j, hj, rfl⟩
    have hjn : j < n := by simpa [DampedSystem.ofFactorization, h.length_pivots] using hj
    refine ⟨⟨j, hjn⟩, hjn.trans_eq h.length_pivots.symm, ?_⟩
    simp [DampedSystem.ofFactorization]
  · rintro ⟨j, hj, rfl⟩
    refine ⟨j, by simp [DampedSystem.ofFactorization, h.length_pivots], ?_⟩
    simp [DampedSystem.ofFactorization]

theorem abs_dot_divide (h : Factors A f σ U) (hnm : n ≤ m) (b : Fin m → ℝ) {length : ℝ}
    (hlength : 0 < length) (j : Fin n) (hj : (j : Nat) < f.pivots.length) :
    |Vec.dot (f.pivots[(j : Nat)].above ++ [f.pivots[(j : Nat)].diagonal])
        (Vec.divide (DampedSystem.ofFactorization f (List.ofFn b)).rhs length) /
          √(A.col (σ j) ⬝ᵥ A.col (σ j))| =
      |A.col (σ j) ⬝ᵥ b| / (√(A.col (σ j) ⬝ᵥ A.col (σ j)) * length) := by
  rw [Vec.dot_comm, Vec.dot_divide_left, Vec.dot_comm, h.rhs_ofFactorization hnm,
    h.dot_head hnm b j hj, abs_div, abs_div, abs_of_pos hlength, abs_of_nonneg (Real.sqrt_nonneg _),
    div_div, mul_comm]

theorem maxCosine_eq (h : Factors A f σ U) (hnm : n ≤ m) (b : Fin m → ℝ)
    (hnorms : f.columnNorms = List.ofFn fun j => √(A.col j ⬝ᵥ A.col j)) {length : ℝ}
    (hlength : 0 < length) :
    ∃ c, (DampedSystem.ofFactorization f (List.ofFn b)).maxCosine length = some c ∧
      IsGreatest (insert 0 (cosines A b length)) c := by
  obtain ⟨c, hgo, hgreatest⟩ := (DampedSystem.ofFactorization f (List.ofFn b)).maxCosine_go_spec
    length 0 ((DampedSystem.ofFactorization f (List.ofFn b)).upper.zip
        (gather (DampedSystem.ofFactorization f (List.ofFn b)).permutation
          (DampedSystem.ofFactorization f (List.ofFn b)).columnNorms))
  refine ⟨c, hgo, ?_⟩
  convert hgreatest using 2
  ext q
  constructor
  · rintro ⟨i, hi, hq⟩
    have hj : ((σ.symm i : Fin n) : Nat) < f.pivots.length :=
      (σ.symm i).isLt.trans_eq h.length_pivots.symm
    refine ⟨_, (h.mem_columns_iff _ hnorms _).mpr ⟨σ.symm i, hj, rfl⟩, ?_, ?_⟩
    · rw [Equiv.apply_symm_apply]
      exact (Vec.sqrt_dotProduct_pos hi).ne'
    · rw [h.abs_dot_divide hnm b hlength, Equiv.apply_symm_apply]
      exact hq
  · rintro ⟨p, hp, hne, hq⟩
    obtain ⟨j, hj, rfl⟩ := (h.mem_columns_iff _ hnorms _).mp hp
    refine ⟨σ j, fun hzero => hne (by simp [hzero]), ?_⟩
    rw [← h.abs_dot_divide hnm b hlength j hj]
    exact hq

end Factorization.Factors

theorem nonneg_of_mem_cosines {b : Fin m → ℝ} {length q : ℝ} (hlength : 0 < length)
    (hq : q ∈ cosines A b length) : 0 ≤ q := by
  obtain ⟨i, -, rfl⟩ := hq
  exact div_nonneg (abs_nonneg _) (mul_nonneg (Real.sqrt_nonneg _) hlength.le)

/-- Of a factored matrix the length of every image is known, and the largest absolute cosine
between a column other than zero and the right hand side.  It counts as zero if there is no such
column. -/
theorem Factorization.measures_columns (A : Matrix (Fin m) (Fin n) ℝ) (b : Fin m → ℝ)
    (pivoting : Bool) (hnm : n ≤ m) {length : ℝ} (hlength : 0 < length) :
    (∀ x : Fin n → ℝ,
      (DampedSystem.ofFactorization (factor .plain pivoting (.ofMatrix A))
        (List.ofFn b)).imageLength .plain (List.ofFn x) = √((A *ᵥ x) ⬝ᵥ (A *ᵥ x))) ∧
    ∃ c, (DampedSystem.ofFactorization (factor .plain pivoting (.ofMatrix A))
        (List.ofFn b)).maxCosine length = some c ∧
      (A = 0 → c = 0) ∧ (A ≠ 0 → IsGreatest (cosines A b length) c) := by
  obtain ⟨σ, U, -, h⟩ := exists_factors pivoting A hnm
  refine ⟨h.imageLength_eq hnm (List.ofFn b), ?_⟩
  obtain ⟨c, hc, hgreatest⟩ := h.maxCosine_eq hnm b (columnNorms_factor pivoting A) hlength
  refine ⟨c, hc, ?_, ?_⟩
  · rintro rfl
    rcases hgreatest.1 with hzero | ⟨i, hi, -⟩
    · exact hzero
    · exact absurd rfl hi
  · intro hA
    -- a column other than zero has a cosine, so that the zero at the start does not matter
    obtain ⟨i, hi⟩ : ∃ i, A.col i ≠ 0 := by
      by_contra hall
      push Not at hall
      exact hA (Matrix.ext fun k j => congrFun (hall j) k)
    have hmem : |A.col i ⬝ᵥ b| / (√(A.col i ⬝ᵥ A.col i) * length) ∈ cosines A b length :=
      ⟨i, hi, rfl⟩
    refine ⟨?_, fun q hq => hgreatest.2 (.inr hq)⟩
    rcases hgreatest.1 with rfl | hcosine
    · have hle := hgreatest.2 (.inr hmem)
      rwa [le_antisymm hle (nonneg_of_mem_cosines hlength hmem)] at hmem
    · exact hcosine

theorem Factorization.measures_columns_unordered :
    3 ≤ 4 ∧ (0 : ℝ) < 2 ∧
    (∀ x : Fin 3 → ℝ,
      (DampedSystem.ofFactorization (factor .plain true (.ofMatrix
        !![(0 : ℝ), 1, 4; 0, 2, 5; 0, 0, 6; 0, 3, 0])) (List.ofFn ![1, 2, 3, 4])).imageLength .plain
          (List.ofFn x) =
        √((!![(0 : ℝ), 1, 4; 0, 2, 5; 0, 0, 6; 0, 3, 0] *ᵥ x) ⬝ᵥ
          (!![(0 : ℝ), 1, 4; 0, 2, 5; 0, 0, 6; 0, 3, 0] *ᵥ x))) ∧
    ∃ c, (DampedSystem.ofFactorization (factor .plain true (.ofMatrix
        !![(0 : ℝ), 1, 4; 0, 2, 5; 0, 0, 6; 0, 3, 0])) (List.ofFn ![1, 2, 3, 4])).maxCosine 2 =
          some c ∧
      (!![(0 : ℝ), 1, 4; 0, 2, 5; 0, 0, 6; 0, 3, 0] = 0 → c = 0) ∧
      (!![(0 : ℝ), 1, 4; 0, 2, 5; 0, 0, 6; 0, 3, 0] ≠ 0 →
        IsGreatest (cosines !![(0 : ℝ), 1, 4; 0, 2, 5; 0, 0, 6; 0, 3, 0] ![1, 2, 3, 4] 2) c) :=
  ⟨by decide, two_pos, measures_columns _ _ true (by decide) two_pos⟩

end Minima
