import Mathlib.Order.Interval.Finset.Fin
import Minima.Proofs.Factorization.Decomposition
import Minima.Proofs.Factorization.Pivoting

/-!
# The diagonal of a pivoted triangle

A diagonal entry of the triangle is at least as long as any later column from its row on, so that
the diagonal does not grow in absolute value.
-/

namespace Minima

open Matrix

variable {m n : Nat}

theorem Vec.dot_drop_ofFn (v : Fin n → ℝ) (j : Fin n) :
    Vec.dot ((List.ofFn v).drop j) ((List.ofFn v).drop j) = ∑ i ∈ Finset.Ici j, v i ^ 2 := by
  have hcut : (List.ofFn fun i : Fin n => if (j : Nat) ≤ i then v i else 0) =
      Vec.zeros j ++ (List.ofFn v).drop j := by
    apply List.ext_getElem
    · simp
    · intro i _ hi
      by_cases hij : i < j
      · rw [List.getElem_append_left (by simpa using hij)]
        simp only [List.getElem_ofFn, Vec.zeros, List.getElem_replicate]
        exact if_neg (Nat.not_le.mpr hij)
      · have hij := Nat.not_lt.mp hij
        rw [List.getElem_append_right (by simpa using hij)]
        simp only [List.getElem_ofFn, List.getElem_drop, Vec.length_zeros, Nat.add_sub_cancel' hij]
        exact if_pos hij
  have hdot := Vec.dot_ofFn (fun i : Fin n => if (j : Nat) ≤ i then v i else 0)
    (fun i => if (j : Nat) ≤ i then v i else 0)
  rw [hcut, Vec.dot_append rfl, Vec.dot_zeros_left, zero_add] at hdot
  rw [hdot, dotProduct, ← Finset.filter_le_eq_Ici, Finset.sum_filter]
  refine Finset.sum_congr rfl fun i _ => ?_
  by_cases hji : j ≤ i
  · rw [if_pos hji, if_pos (Fin.le_def.mp hji), sq]
  · rw [if_neg hji, if_neg (mt Fin.le_def.mpr hji), zero_mul]

namespace Factorization

variable {A : Matrix (Fin m) (Fin n) ℝ} {f : Factorization ℝ} {σ : Equiv.Perm (Fin n)}
  {U : Matrix (Fin m) (Fin m) ℝ}

theorem Factors.sum_Ici_eq (h : Factors A f σ U) (hnm : n ≤ m) {j k : Fin n} (hjk : j ≤ k)
    (hk : (k : Nat) < f.pivots.length) :
    ∑ i ∈ Finset.Ici j, (Uᵀ * A).submatrix (Fin.castLE hnm) σ i k ^ 2 =
      Vec.dot (f.pivots[(k : Nat)].above.drop j) (f.pivots[(k : Nat)].above.drop j) +
        f.pivots[(k : Nat)].diagonal * f.pivots[(k : Nat)].diagonal := by
  have habove := (h.column k f.pivots[(k : Nat)] (List.getElem?_eq_getElem hk)).1
  have hj : (j : Nat) ≤ f.pivots[(k : Nat)].above.length := habove.symm ▸ hjk
  rw [← Vec.dot_drop_ofFn (fun i => (Uᵀ * A).submatrix (Fin.castLE hnm) σ i k),
    ← h.column_triangular hnm k hk, List.drop_append_of_le_length hj, Vec.dot_append rfl,
    Vec.dot_cons_cons, Vec.dot_zeros_left, add_zero]

end Factorization

theorem abs_diagonal_le {R : Matrix (Fin n) (Fin n) ℝ} {j k : Fin n} (hjk : j ≤ k)
    (h : ∑ i ∈ Finset.Icc j k, R i k ^ 2 ≤ R j j ^ 2) : |R k k| ≤ |R j j| := by
  refine sq_le_sq.mp (le_trans ?_ h)
  exact Finset.single_le_sum (f := fun i => R i k ^ 2) (fun i _ => sq_nonneg (R i k))
    (Finset.right_mem_Icc.mpr hjk)

/-- With pivoting a diagonal entry dominates every later column from its row on, and the entries
of the diagonal are in descending order of their absolute values. -/
theorem Factorization.diagonal_dominates (A : Matrix (Fin m) (Fin n) ℝ) (hnm : n ≤ m) :
    ∃ R : Matrix (Fin n) (Fin n) ℝ,
      (factor .plain true (.ofMatrix A)).triangular = .ofMatrix R ∧
      (∀ j k, j ≤ k → ∑ i ∈ Finset.Icc j k, R i k ^ 2 ≤ R j j ^ 2) ∧
      ∀ j k, j ≤ k → |R k k| ≤ |R j j| := by
  obtain ⟨σ, U, -, h⟩ := exists_factors true A hnm
  have hdominates := dominates_factor A hnm
  have hlength := h.length_pivots
  have hsum (j k : Fin n) (hjk : j ≤ k) :
      ∑ i ∈ Finset.Icc j k, (Uᵀ * A).submatrix (Fin.castLE hnm) σ i k ^ 2 ≤
        (Uᵀ * A).submatrix (Fin.castLE hnm) σ j j ^ 2 := by
    have hk := k.isLt.trans_eq hlength.symm
    have hle := hdominates j k hjk hk
    have hdiagonal := h.entry_eq_diagonal (i := Fin.castLE hnm j) rfl (j.isLt.trans_eq hlength.symm)
    rw [Nat.zero_add, ← h.sum_Ici_eq hnm hjk hk, ← hdiagonal, ← sq] at hle
    refine le_trans ?_ hle
    exact Finset.sum_le_sum_of_subset_of_nonneg Finset.Icc_subset_Ici_self
      fun _ _ _ => sq_nonneg _
  exact ⟨_, h.triangular_eq hnm, hsum, fun j k hjk => abs_diagonal_le hjk (hsum j k hjk)⟩

theorem Factorization.diagonal_dominates_repeated :
    3 ≤ 4 ∧ ∃ R : Matrix (Fin 3) (Fin 3) ℝ,
      (factor .plain true (.ofMatrix !![(30 : ℝ), 30, 24; 43, 43, 39; 34, 34, -10;
        26, 26, -34])).triangular = .ofMatrix R ∧
      (∀ j k, j ≤ k → ∑ i ∈ Finset.Icc j k, R i k ^ 2 ≤ R j j ^ 2) ∧
      ∀ j k, j ≤ k → |R k k| ≤ |R j j| :=
  ⟨by decide, diagonal_dominates _ (by decide)⟩

end Minima
