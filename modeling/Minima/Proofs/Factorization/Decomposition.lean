import Mathlib.LinearAlgebra.Matrix.Block
import Minima.Proofs.Exact.Matrix
import Minima.Proofs.Factorization.Reduction

/-!
# Orthogonal times triangular

The factors of a matrix of any shape multiply to the matrix with its columns in
pivot order, one is triangular and the other orthonormal.
-/

namespace Minima

open Matrix

namespace Factorization

variable {m n : Nat} {pivoting : Bool}

/-- What a factorization finds: an order `σ` of the columns and an orthogonal
matrix `U` whose transpose takes the columns in that order to a triangle. -/
structure Factors (A : Matrix (Fin m) (Fin n) ℝ) (f : Factorization ℝ) (σ : Equiv.Perm (Fin n))
    (U : Matrix (Fin m) (Fin m) ℝ) : Prop where
  rows : f.rows = m
  orthogonal : Uᵀ * U = 1
  permutation : f.permutation = List.ofFn fun j => (σ j : Nat)
  reflections : ∀ v, applyReflections f.pivots (List.ofFn v) = List.ofFn (U *ᵥ v)
  transposed : ∀ v, applyTransposed f.pivots (List.ofFn v) = List.ofFn (Uᵀ *ᵥ v)
  column : ∀ (j : Fin n) p, f.pivots[j]? = some p → p.above.length = j ∧
    List.ofFn (Uᵀ *ᵥ fun i => A i (σ j)) =
      p.above ++ p.diagonal :: Vec.zeros (m - (j + 1))

private noncomputable def start (A : Matrix (Fin m) (Fin n) ℝ) : List (Column ℝ) :=
  List.ofFn fun j =>
    let column := List.ofFn fun i => A i j
    ⟨j, [], column, Norm.length .plain column, Norm.length .plain column⟩

private theorem pivots_factor (A : Matrix (Fin m) (Fin n) ℝ) :
    (factor .plain pivoting (.ofMatrix A)).pivots =
      reduce .plain pivoting (start A).length (start A) := by
  have hstart : ((DenseMatrix.ofMatrix A).columns.zipIdx.map fun (column, j) =>
      (⟨j, [], column, Norm.length .plain column, Norm.length .plain column⟩ : Column ℝ)) =
        start A := by
    apply List.ext_getElem
    · simp [DenseMatrix.ofMatrix, start]
    · intro i _ _
      simp [DenseMatrix.ofMatrix, start]
  simp only [factor]
  rw [← hstart]

private theorem sources_start (A : Matrix (Fin m) (Fin n) ℝ) :
    (start A).map (·.source) = List.range n := by
  apply List.ext_getElem
  · simp [start]
  · intro i _ _
    simp [start]

theorem exists_factors (pivoting : Bool) (A : Matrix (Fin m) (Fin n) ℝ) (hnm : n ≤ m) :
    ∃ σ U, (pivoting = false → σ = 1) ∧
      Factors A (factor .plain pivoting (.ofMatrix A)) σ U := by
  have hlength : (start A).length = n := by simp [start]
  have hrest : ∀ c ∈ start A, c.rest.length = m := by
    intro c hc
    obtain ⟨j, rfl⟩ := List.mem_ofFn.mp hc
    simp
  have h := reduces_reduce pivoting rfl hrest (hlength.trans_le hnm)
  have hsources := h.sources
  rw [sources_start] at hsources
  obtain ⟨σ, hσ⟩ := exists_perm_of_perm_range hsources
  refine ⟨σ, reflectionMatrix h.staircase, ?_, ?_⟩
  · rintro rfl
    rw [sources_reduce_of_not_pivoting, sources_start] at hσ
    ext j
    have hj : (List.range n)[(j : Nat)]? = (List.ofFn fun j => (σ j : Nat))[(j : Nat)]? := by
      rw [hσ]
    simpa using hj.symm
  · refine ⟨rfl, reflectionMatrix_orthogonal _, ?_, ?_, ?_, ?_⟩
    · rw [permutation, pivots_factor, hσ]
    · intro v
      rw [pivots_factor, applyReflections_ofFn]
    · intro v
      rw [pivots_factor, applyTransposed_ofFn]
    · intro j p hp
      rw [pivots_factor] at hp
      obtain ⟨hj, rfl⟩ := List.getElem?_eq_some_iff.mp hp
      obtain ⟨c, hc, hsource, finished, hfinished, habove, htransposed⟩ := h.column j hj
      obtain ⟨k, rfl⟩ := List.mem_ofFn.mp hc
      have hk : k = σ j := by
        have hj' : ((reduce .plain pivoting (start A).length (start A)).map
            (·.source))[(j : Nat)]? = some (k : Nat) := by
          simp [hj, hsource]
        rw [hσ] at hj'
        exact Fin.ext (by simpa using hj'.symm)
      have habove : _ = finished := habove
      rw [← applyTransposed_ofFn, ← hk, htransposed, habove]
      exact ⟨hfinished, rfl⟩

section Factors

variable {A : Matrix (Fin m) (Fin n) ℝ} {f : Factorization ℝ} {σ : Equiv.Perm (Fin n)}
  {U : Matrix (Fin m) (Fin m) ℝ}

theorem Factors.length_pivots (h : Factors A f σ U) : f.pivots.length = n := by
  have hlength := congrArg List.length h.permutation
  rw [Factorization.permutation, List.length_map, List.length_ofFn] at hlength
  exact hlength

theorem Factors.triangular_eq (h : Factors A f σ U) (hnm : n ≤ m) :
    f.triangular = .ofMatrix ((Uᵀ * A).submatrix (Fin.castLE hnm) σ) := by
  simp only [triangular, DenseMatrix.ofMatrix, h.length_pivots, DenseMatrix.mk.injEq, true_and]
  apply List.ext_getElem
  · simp [h.length_pivots]
  · intro j hj _
    have hj : j < f.pivots.length := by simpa using hj
    obtain ⟨habove, hcolumn⟩ :=
      h.column ⟨j, h.length_pivots ▸ hj⟩ f.pivots[j] (List.getElem?_eq_getElem hj)
    have habove : f.pivots[j].above.length = j := habove
    have htake := congrArg (List.take n) hcolumn
    rw [Vec.take_ofFn hnm, List.take_append, habove, List.take_of_length_le (by omega),
      List.take_cons (by simp; omega)] at htake
    simp only [List.getElem_map, List.getElem_ofFn, habove, submatrix_apply]
    refine Eq.trans ?_ htake.symm
    congr 2
    simp only [Vec.zeros, List.take_replicate]
    congr 1
    omega

theorem Factors.column_triangular (h : Factors A f σ U) (hnm : n ≤ m) (j : Fin n)
    (hj : (j : Nat) < f.pivots.length) :
    f.pivots[(j : Nat)].above ++ f.pivots[(j : Nat)].diagonal :: Vec.zeros (n - (j + 1)) =
      List.ofFn fun i => (Uᵀ * A).submatrix (Fin.castLE hnm) σ i j := by
  have habove := (h.column j f.pivots[(j : Nat)] (List.getElem?_eq_getElem hj)).1
  have hcolumns := congrArg (·.columns[(j : Nat)]?) (h.triangular_eq hnm)
  simp only [triangular, DenseMatrix.ofMatrix, List.getElem?_map, List.getElem?_eq_getElem hj,
    Option.map_some, List.getElem?_ofFn, Fin.is_lt, dif_pos, Option.some.injEq, habove,
    h.length_pivots] at hcolumns
  exact hcolumns

theorem Factors.entry_eq_zero (h : Factors A f σ U) {i : Fin m} {j : Fin n}
    (hij : (j : Nat) < i) : (Uᵀ * A) i (σ j) = 0 := by
  have hj : (j : Nat) < f.pivots.length := by simp [h.length_pivots]
  obtain ⟨habove, hcolumn⟩ := h.column j f.pivots[j] (List.getElem?_eq_getElem hj)
  have hentry := congrArg (fun l => l[(i : Nat)]?) hcolumn
  simp only [List.getElem?_ofFn, Fin.is_lt, dif_pos] at hentry
  rw [List.getElem?_append_right (by omega), List.getElem?_cons, if_neg (by omega), Vec.zeros,
    List.getElem?_replicate, if_pos (by have := i.isLt; omega)] at hentry
  exact Option.some.inj hentry

theorem Factors.entry_eq_above (h : Factors A f σ U) {i : Fin m} {j : Fin n}
    (hij : (i : Nat) < j) (hj : (j : Nat) < f.pivots.length) :
    (Uᵀ * A) i (σ j) = f.pivots[(j : Nat)].above.getD i 0 := by
  obtain ⟨habove, hcolumn⟩ := h.column j f.pivots[(j : Nat)] (List.getElem?_eq_getElem hj)
  have hentry := congrArg (fun l => l[(i : Nat)]?) hcolumn
  simp only [List.getElem?_ofFn, Fin.is_lt, dif_pos] at hentry
  rw [List.getElem?_append_left (by omega)] at hentry
  rw [List.getD_eq_getElem?_getD, ← hentry]
  rfl

theorem Factors.entry_eq_diagonal (h : Factors A f σ U) {i : Fin m} {j : Fin n}
    (hij : (i : Nat) = j) (hj : (j : Nat) < f.pivots.length) :
    (Uᵀ * A) i (σ j) = f.pivots[(j : Nat)].diagonal := by
  obtain ⟨habove, hcolumn⟩ := h.column j f.pivots[(j : Nat)] (List.getElem?_eq_getElem hj)
  have hentry := congrArg (fun l => l[(i : Nat)]?) hcolumn
  simp only [List.getElem?_ofFn, Fin.is_lt, dif_pos] at hentry
  have hplace : (i : Nat) - f.pivots[(j : Nat)].above.length = 0 := by
    omega
  rw [List.getElem?_append_right (by omega), hplace, List.getElem?_cons_zero] at hentry
  exact Option.some.inj hentry

theorem Factors.orthogonal_eq (h : Factors A f σ U) (hnm : n ≤ m) :
    f.orthogonal = .ofMatrix (U.submatrix id (Fin.castLE hnm)) := by
  simp only [Factorization.orthogonal, DenseMatrix.ofMatrix, h.length_pivots, h.rows,
    DenseMatrix.mk.injEq, true_and]
  apply List.ext_getElem
  · simp
  · intro j hj _
    have hjn : j < n := by simpa using hj
    have hunit : (Vec.unit m j : Vec ℝ) = List.ofFn (Pi.single (⟨j, by omega⟩ : Fin m) 1) :=
      Vec.unit_eq_ofFn ⟨j, by omega⟩
    simp only [List.getElem_map, List.getElem_range, List.getElem_ofFn, hunit, h.reflections,
      mulVec_single_one, submatrix_apply, id_eq]
    rfl

theorem Factors.mul_eq (h : Factors A f σ U) (hnm : n ≤ m) :
    U.submatrix id (Fin.castLE hnm) * (Uᵀ * A).submatrix (Fin.castLE hnm) σ =
      A.submatrix id σ := by
  obtain ⟨d, rfl⟩ := Nat.exists_eq_add_of_le hnm
  have hUU : U * Uᵀ = 1 := mul_eq_one_comm.mp h.orthogonal
  ext i j
  have hfull : (U * (Uᵀ * A)) i (σ j) = A i (σ j) := by
    rw [← Matrix.mul_assoc, hUU, Matrix.one_mul]
  have hbelow (l : Fin d) : (Uᵀ * A) (Fin.natAdd n l) (σ j) = 0 :=
    h.entry_eq_zero (by simp; omega)
  rw [Matrix.mul_apply, Fin.sum_univ_add] at hfull
  simp only [hbelow, mul_zero, Finset.sum_const_zero, add_zero] at hfull
  rw [Matrix.mul_apply]
  exact hfull

theorem Factors.transpose_mul_self (h : Factors A f σ U) (hnm : n ≤ m) :
    (U.submatrix id (Fin.castLE hnm))ᵀ * U.submatrix id (Fin.castLE hnm) = 1 := by
  have hU := congrArg (fun B => B.submatrix (Fin.castLE hnm) (Fin.castLE hnm)) h.orthogonal
  simp only [submatrix_one _ (Fin.castLE_injective hnm)] at hU
  rw [← hU]
  rfl

end Factors

end Factorization

/-- The orthogonal factor times the triangular one is the matrix with its
columns in pivot order.  The orthogonal factor has orthonormal columns if it has
at least as many rows, and orthonormal rows if it has at most as many. -/
theorem orthogonal_mul_triangular {m n : Nat} (A : Matrix (Fin m) (Fin n) ℝ) (pivoting : Bool) :
    ∃ (σ : Equiv.Perm (Fin n)) (Q : Matrix (Fin m) (Fin n) ℝ) (R : Matrix (Fin n) (Fin n) ℝ),
      decompose .plain pivoting (.ofMatrix A) =
        ⟨List.ofFn fun j => (σ j : Nat), .ofMatrix R, .ofMatrix Q⟩ ∧
      Q * R = A.submatrix id σ ∧
      R.IsUpperTriangular ∧
      (n ≤ m → Qᵀ * Q = 1) ∧
      (m ≤ n → Q * Qᵀ = 1) ∧
      (pivoting = false → σ = 1) := by
  have hnm : n ≤ m + (n - m) := by omega
  obtain ⟨σ, U, hσ, h⟩ :=
    Factorization.exists_factors pivoting (DenseMatrix.pad (n - m) A) hnm
  refine ⟨σ, (U.submatrix id (Fin.castLE hnm)).submatrix (Fin.castAdd (n - m)) id,
    (Uᵀ * DenseMatrix.pad (n - m) A).submatrix (Fin.castLE hnm) σ, ?_, ?_, ?_, ?_, ?_, hσ⟩
  · simp only [decompose, DenseMatrix.width_ofMatrix, DenseMatrix.padRows_ofMatrix,
      DenseMatrix.rows_ofMatrix, h.permutation, h.triangular_eq hnm, h.orthogonal_eq hnm,
      DenseMatrix.takeRows_ofMatrix]
  · ext i j
    have hij := congrFun (congrFun (h.mul_eq hnm) (Fin.castAdd (n - m) i)) j
    simpa [mul_apply] using hij
  · intro i j hij
    exact h.entry_eq_zero hij
  · intro hmn
    have hempty : IsEmpty (Fin (n - m)) := by
      rw [Nat.sub_eq_zero_of_le hmn]
      infer_instance
    rw [← h.transpose_mul_self hnm]
    ext i j
    simp [mul_apply, Fin.sum_univ_add]
  · intro hmn
    have hUU : U * Uᵀ = 1 := mul_eq_one_comm.mp h.orthogonal
    have hcast : n = m + (n - m) := by omega
    ext i j
    have hij := congrFun (congrFun hUU (Fin.castAdd (n - m) i)) (Fin.castAdd (n - m) j)
    rw [Matrix.mul_apply, ← Equiv.sum_comp (finCongr hcast), one_apply] at hij
    simp only [Fin.castAdd_inj] at hij
    rw [Matrix.mul_apply, one_apply]
    exact hij

end Minima
