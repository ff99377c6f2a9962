import Mathlib.Algebra.BigOperators.Fin
import Mathlib.Data.Matrix.Mul
import Mathlib.Data.Fintype.EquivFin
import Minima.Proofs.Exact.Vec

/-!
# Dense matrices by their entries

Dense matrices are lists of columns; the theory states its results about matrices
that are functions of two bounded indices.  `ofMatrix` leads from the second to
the first.
-/

namespace Minima

open Matrix

variable {m n : Nat}

namespace DenseMatrix

def ofMatrix {α : Type} (A : Matrix (Fin m) (Fin n) α) : DenseMatrix α where
  rows := m
  columns := List.ofFn fun j => List.ofFn fun i => A i j

@[simp] theorem rows_ofMatrix {α : Type} (A : Matrix (Fin m) (Fin n) α) :
    (ofMatrix A).rows = m := rfl

@[simp] theorem width_ofMatrix {α : Type} (A : Matrix (Fin m) (Fin n) α) :
    (ofMatrix A).width = n := by
  simp [ofMatrix, width]

def pad (k : Nat) (A : Matrix (Fin m) (Fin n) ℝ) : Matrix (Fin (m + k)) (Fin n) ℝ :=
  Matrix.of fun i j => Fin.append (fun i => A i j) (fun _ => 0) i

@[simp] theorem pad_castAdd (k : Nat) (A : Matrix (Fin m) (Fin n) ℝ) (i : Fin m) (j : Fin n) :
    pad k A (Fin.castAdd k i) j = A i j := by
  simp [pad]

@[simp] theorem pad_natAdd (k : Nat) (A : Matrix (Fin m) (Fin n) ℝ) (i : Fin k) (j : Fin n) :
    pad k A (Fin.natAdd m i) j = 0 := by
  simp [pad]

theorem transpose_pad_mul_pad (k : Nat) (A : Matrix (Fin m) (Fin n) ℝ) :
    (pad k A)ᵀ * pad k A = Aᵀ * A := by
  ext i j
  simp [mul_apply, Fin.sum_univ_add]

theorem transpose_pad_mulVec (k : Nat) (A : Matrix (Fin m) (Fin n) ℝ) (b : Fin m → ℝ)
    (c : Fin k → ℝ) : (pad k A)ᵀ *ᵥ Fin.append b c = Aᵀ *ᵥ b := by
  ext i
  simp [Matrix.mulVec, dotProduct, Fin.sum_univ_add]

theorem padRows_ofMatrix (rows : Nat) (A : Matrix (Fin m) (Fin n) ℝ) :
    (ofMatrix A).padRows rows = ofMatrix (pad (rows - m) A) := by
  simp only [padRows, ofMatrix, List.map_ofFn, Function.comp_def, Vec.zeros_eq_ofFn,
    ← List.ofFn_fin_append]
  rfl

theorem takeRows_ofMatrix {k : Nat} (A : Matrix (Fin (m + k)) (Fin n) ℝ) :
    (ofMatrix A).takeRows m = ofMatrix (A.submatrix (Fin.castAdd k) id) := by
  simp only [takeRows, ofMatrix, List.map_ofFn, Function.comp_def, submatrix_apply, id_eq,
    mk.injEq]
  refine ⟨Nat.min_eq_left (Nat.le_add_right m k), ?_⟩
  congr 1
  funext j
  apply List.ext_getElem
  · simp
  · intro i _ _
    simp

/-! ## Products and outer products -/

theorem foldl_accumulate_ofFn {k : Nat} (c : Fin k → Fin m → ℝ) (v : Fin k → ℝ) (u : Fin m → ℝ) :
    ((List.ofFn fun j => List.ofFn (c j)).zip (List.ofFn v)).foldl
        (fun sum (column, s) => Vec.accumulate s column sum) (List.ofFn u) =
      List.ofFn (u + ∑ j, v j • c j) := by
  induction k generalizing u with
  | zero => simp
  | succ k ih =>
      simp only [List.ofFn_succ, List.zip_cons_cons, List.foldl_cons, Vec.accumulate_ofFn, ih,
        Fin.sum_univ_succ]
      rw [add_comm (v 0 • c 0) u, add_assoc]

theorem mulVec_ofMatrix (A : Matrix (Fin m) (Fin n) ℝ) (v : Fin n → ℝ) :
    (ofMatrix A).mulVec (List.ofFn v) = List.ofFn (A *ᵥ v) := by
  have hcolumns : A *ᵥ v = ∑ j, v j • fun i => A i j := by
    funext i
    simp [Matrix.mulVec, dotProduct, mul_comm]
  rw [hcolumns]
  cases n with
  | zero =>
      simp only [ofMatrix, mulVec, List.ofFn_zero, Finset.univ_eq_empty, Finset.sum_empty]
      exact Vec.zeros_eq_ofFn m
  | succ n =>
      simp only [ofMatrix, mulVec, List.ofFn_succ]
      rw [Vec.scale_ofFn, foldl_accumulate_ofFn (fun j i => A i j.succ) (fun j => v j.succ),
        Fin.sum_univ_succ]

theorem addOuter_ofMatrix (A : Matrix (Fin m) (Fin n) ℝ) (s : ℝ) (x : Fin m → ℝ) (y : Fin n → ℝ) :
    (ofMatrix A).addOuter s (List.ofFn x) (List.ofFn y) = ofMatrix (A + s • vecMulVec x y) := by
  simp only [addOuter, ofMatrix, mk.injEq, true_and]
  apply List.ext_getElem
  · simp
  · intro j _ _
    simp only [List.getElem_zipWith, List.getElem_ofFn, Vec.accumulate_ofFn]
    congr 1
    funext i
    simp [vecMulVec_apply]
    ring

theorem identity_eq_ofMatrix (n : Nat) :
    (identity n : DenseMatrix ℝ) = ofMatrix (1 : Matrix (Fin n) (Fin n) ℝ) := by
  simp only [identity, ofMatrix, mk.injEq, true_and]
  apply List.ext_getElem
  · simp
  · intro j hj _
    have hjn : j < n := by simpa using hj
    simp only [List.getElem_map, List.getElem_range, List.getElem_ofFn]
    rw [show Vec.unit n j = _ from Vec.unit_eq_ofFn ⟨j, hjn⟩]
    congr 1
    funext i
    simp [Matrix.one_apply, Pi.single_apply]

end DenseMatrix

theorem exists_perm_of_perm_range {l : List Nat} (h : l.Perm (List.range n)) :
    ∃ σ : Equiv.Perm (Fin n), l = List.ofFn fun j => (σ j : Nat) := by
  have hlength : l.length = n := by simpa using h.length_eq
  subst hlength
  have hlt (j : Fin l.length) : l[j] < l.length :=
    List.mem_range.mp (h.mem_iff.mp (List.getElem_mem _))
  have hinjective : Function.Injective fun j : Fin l.length => (⟨l[j], hlt j⟩ : Fin l.length) := by
    intro i j hij
    have hnodup : l.Nodup := h.nodup_iff.mpr List.nodup_range
    exact Fin.ext ((List.Nodup.getElem_inj_iff hnodup).mp (Fin.ext_iff.mp hij))
  refine ⟨Equiv.ofBijective _ (Finite.injective_iff_bijective.mp hinjective), ?_⟩
  apply List.ext_getElem
  · simp
  · intro i _ _
    simp

end Minima
