import Mathlib
import Minima.Proofs.Exact.Vec
import Minima.Proofs.Factorization.Reuse

/-!
# Either half of the storage

A factor that is handed out stands for a lower triangular matrix.  It lies below the diagonal of
the storage, column by column, with its own diagonal kept apart, or it lies above as its
transpose.  In exact arithmetic both forms solve the system of that matrix and multiply by it,
and the other half of the storage does not count.
-/

namespace Minima.Workspace

open Matrix

/-! ## The matrix of a factor -/

section

variable {n : Nat}

/-- The lower triangular matrix that a factor stands for. -/
def factorMatrix (w : Workspace ℝ n) (lower : Bool) : Matrix (Fin n) (Fin n) ℝ :=
  Matrix.of fun i j =>
    if lower then
      if j < i then (w.columns.get j).get i else if i = j then w.diagonal.get i else 0
    else if j ≤ i then (w.columns.get i).get j else 0

/-- The matrix that brings the columns into pivot order: its column `j` is the unit vector of the
place that is reduced in step `j`. -/
def permutationMatrix (w : Workspace ℝ n) : Matrix (Fin n) (Fin n) ℝ :=
  Matrix.of fun i j => if i = w.permutation.get j then 1 else 0

variable (w : Workspace ℝ n)

theorem transpose_permutationMatrix_mulVec (v : Vector ℝ n) :
    w.permutationMatrixᵀ *ᵥ v.get = (gather w.permutation v).get := by
  funext j
  have hentry : (gather w.permutation v).get j = v.get w.permutation[j] := Vector.getElem_ofFn _
  simp [hentry, permutationMatrix, mulVec, dotProduct, Vector.get_eq_getElem]

theorem factorMatrix_diagonal (i : Fin n) : w.factorMatrix true i i = w.diagonal.get i := by
  simp [factorMatrix]

theorem factorMatrix_below {i : Fin n} {j : Nat} (hj : j < n) (hji : j < i) :
    w.factorMatrix true i ⟨j, hj⟩ = w.columns[j][i] := by
  simp [factorMatrix, Fin.mk_lt_of_lt_val hji, Vector.get_eq_getElem]

theorem isLowerTriangular_factorMatrix (lower : Bool) :
    (w.factorMatrix lower).IsLowerTriangular := by
  intro i j hij
  have hij : i < j := OrderDual.toDual_lt_toDual.mp hij
  simp [factorMatrix, hij.not_gt, hij.ne, hij.not_ge]

theorem isNonSingular_iff (lower : Bool) :
    (w.factor lower).isNonSingular = true ↔ ∀ j, w.factorMatrix lower j j ≠ 0 := by
  cases lower with
  | true =>
      simp [factor, Factor.isNonSingular, system, Workspace.lower, DampedSystem.lowerFactor,
        Triangle.isNonSingular, factorMatrix, Vector.get_eq_getElem]
  | false =>
      simp [factor, Factor.isNonSingular, system, upper, DampedSystem.upperFactor,
        Triangle.isNonSingular, factorMatrix, Vector.get_eq_getElem]

theorem isUnit_factorMatrix_iff (lower : Bool) :
    IsUnit (w.factorMatrix lower) ↔ ∀ j, w.factorMatrix lower j j ≠ 0 := by
  rw [isUnit_iff_isUnit_det, det_of_isLowerTriangular _ (w.isLowerTriangular_factorMatrix lower),
    isUnit_iff_ne_zero, Finset.prod_ne_zero_iff]
  simp

/-! ## Below the diagonal -/

theorem sum_from_eq_add (f : Fin n → ℝ) {j : Nat} (hj : j < n) :
    ∑ k : Fin n with j ≤ k.val, f k = f ⟨j, hj⟩ + ∑ k : Fin n with j + 1 ≤ k.val, f k := by
  have hinsert : Finset.univ.filter (fun k : Fin n => j ≤ k.val) =
      insert ⟨j, hj⟩ (Finset.univ.filter fun k : Fin n => j + 1 ≤ k.val) := by
    ext k
    simp [Fin.ext_iff]
    omega
  rw [hinsert, Finset.sum_insert (by simp)]

theorem sum_from_beyond (lower : Bool) (y : Fin n → ℝ) {i : Fin n} {j : Nat} (hij : i < j) :
    ∑ k : Fin n with j ≤ k.val, w.factorMatrix lower i k * y k = 0 := by
  refine Finset.sum_eq_zero fun k hk => ?_
  have hik : i < k := Nat.lt_of_lt_of_le hij (Finset.mem_filter.mp hk).2
  rw [w.isLowerTriangular_factorMatrix lower (OrderDual.toDual_lt_toDual.mpr hik), zero_mul]

theorem getElem_forward_of_lt (x : Vector ℝ n) {i j : Nat} (hi : i < n) (hij : i < j) :
    (w.forward x j)[i] = x[i] := by
  have hentry := congrArg (fun l => l[i]?) (take_forward w x j)
  simpa [hij, hi] using hentry

theorem sum_forward (hw : ∀ j, w.factorMatrix true j j ≠ 0) (x : Vector ℝ n) (j : Nat)
    (i : Fin n) (hji : j ≤ i) :
    ∑ k : Fin n with j ≤ k.val, w.factorMatrix true i k * (w.forward x j).get k = x.get i := by
  fun_induction forward w x j with
  | case1 x j hj a ih =>
      have hentry := getElem_forward_of_lt w
        (writeFrom (j + 1) (fun i => -a * w.columns[j][i] + x[i]) (x.set j a)) hj
        (Nat.lt_succ_self j)
      generalize w.forward _ (j + 1) = y at hentry ih ⊢
      have ha : y.get ⟨j, hj⟩ = a := hentry.trans (by simp)
      rw [sum_from_eq_add _ hj, ha]
      obtain rfl | hlt := Nat.eq_or_lt_of_le hji
      · rw [w.sum_from_beyond true y.get (Nat.lt_succ_self i), add_zero]
        have hdiagonal := hw i
        rw [w.factorMatrix_diagonal] at hdiagonal ⊢
        exact mul_div_cancel₀ _ hdiagonal
      · have hstep : (writeFrom (j + 1) (fun i => -a * w.columns[j][i] + x[i]) (x.set j a)).get i =
            -a * w.columns[j][i] + x.get i :=
          (getElem_writeFrom _ _ _ _ i.isLt).trans (if_neg (Nat.not_lt.mpr hlt))
        rw [ih hlt, w.factorMatrix_below hj hlt, hstep]
        ring
  | case2 x j hj => exact absurd (Nat.lt_of_le_of_lt hji i.isLt) hj

theorem get_addLower (sum : Vector ℝ n) (j : Nat) (i : Fin n) :
    (w.addLower sum j).get i =
      sum.get i + ∑ k : Fin n with j ≤ k.val, w.factorMatrix true i k * w.rhs.get k := by
  fun_induction addLower w sum j with
  | case1 sum j hj b ih =>
      rw [ih, sum_from_eq_add _ hj, ← add_assoc]
      congr 1
      refine (getElem_writeFrom _ _ _ _ i.isLt).trans ?_
      obtain hij | rfl | hji := Nat.lt_trichotomy i j
      · have hzero : w.factorMatrix true i ⟨j, hj⟩ = 0 :=
          w.isLowerTriangular_factorMatrix true (OrderDual.toDual_lt_toDual.mpr hij)
        rw [if_pos (Nat.lt_succ_of_lt hij), Vector.getElem_set_ne _ _ (Nat.ne_of_gt hij), hzero,
          zero_mul, add_zero]
        rfl
      · rw [if_pos (Nat.lt_succ_self i), Vector.getElem_set_self, w.factorMatrix_diagonal, mul_comm]
        rfl
      · rw [if_neg (Nat.not_lt.mpr hji), w.factorMatrix_below hj hji, mul_comm,
          add_comm]
        rfl
  | case2 sum j hj =>
      rw [w.sum_from_beyond true w.rhs.get (by omega), add_zero]

/-! ## Above the diagonal -/

theorem dot_take (a b : Vector ℝ n) {j : Nat} (hj : j ≤ n) :
    Vec.dot (a.toList.take j) (b.toList.take j) =
      ∑ k : Fin n with k.val < j, a.get k * b.get k := by
  induction j with
  | zero => simp
  | succ j ih =>
      have hinsert : Finset.univ.filter (fun k : Fin n => k.val < j + 1) =
          insert ⟨j, hj⟩ (Finset.univ.filter fun k : Fin n => k.val < j) := by
        ext k
        simp [Fin.ext_iff]
        omega
      rw [take_toList_succ a hj, take_toList_succ b hj, dot_concat (by simp),
        ih (Nat.le_of_succ_le hj), hinsert, Finset.sum_insert (by simp), add_comm]
      rfl

theorem dot_take_row (y : Vector ℝ n) (i : Fin n) :
    Vec.dot (y.toList.take (i + 1)) ((w.columns.get i).toList.take (i + 1)) =
      (w.factorMatrix false *ᵥ y.get) i := by
  rw [dot_take _ _ i.isLt, mulVec, dotProduct, Finset.sum_filter]
  refine Finset.sum_congr rfl fun k _ => ?_
  have hentry : w.factorMatrix false i k =
      if k.val < i + 1 then (w.columns.get i).get k else 0 := by
    simp [factorMatrix]
  rw [hentry, ite_mul, zero_mul, mul_comm]

theorem getElem_forwardTransposed_of_lt (x : Vector ℝ n) {i j : Nat} (hi : i < n) (hij : i < j) :
    (w.forwardTransposed x j)[i] = x[i] := by
  fun_induction forwardTransposed w x j with
  | case1 x j hj sum ih =>
      rw [ih (Nat.lt_succ_of_lt hij), Vector.getElem_set_ne _ _ (Nat.ne_of_gt hij)]
  | case2 x j hj => rfl

theorem mulVec_forwardTransposed (hw : ∀ j, w.factorMatrix false j j ≠ 0) (x : Vector ℝ n) (j : Nat)
    (i : Fin n) (hji : j ≤ i) :
    (w.factorMatrix false *ᵥ (w.forwardTransposed x j).get) i = x.get i := by
  fun_induction forwardTransposed w x j with
  | case1 x j hj sum ih =>
      obtain rfl | hlt := Nat.eq_or_lt_of_le hji
      · have hknown (k : Nat) (hk : k < n) (hki : k < i + 1) := getElem_forwardTransposed_of_lt w
          (x.set i ((x[i] - sum) / w.columns[i][i])) hk hki
        generalize w.forwardTransposed _ (i + 1) = y at hknown ⊢
        have htake : y.toList.take i = x.toList.take i := by
          apply List.ext_getElem
          · simp
          · intro k hk _
            have hki : k < i := by simpa using hk
            simp [hknown k (Nat.lt_trans hki hj) (Nat.lt_succ_of_lt hki),
              Vector.getElem_set_ne _ _ (Nat.ne_of_gt hki)]
        have hlast : y[i.val] = (x[i.val] - sum) / w.columns[i.val][i.val] :=
          (hknown i hj (Nat.lt_succ_self i)).trans (Vector.getElem_set_self _)
        have hdiagonal : w.columns[i.val][i.val] ≠ 0 := by
          simpa [factorMatrix, Vector.get_eq_getElem] using hw i
        rw [← dot_take_row, take_toList_succ _ hj, take_toList_succ _ hj, htake,
          dot_concat (by simp), hlast]
        exact (congrArg _ (div_mul_cancel₀ _ hdiagonal)).trans (add_sub_cancel _ _)
      · rw [ih hlt]
        exact Vector.getElem_set_ne _ _ (Nat.ne_of_lt hlt)
  | case2 x j hj => exact absurd (Nat.lt_of_le_of_lt hji i.isLt) hj

/-! ## Both forms -/

theorem mulVec_solveFactor {lower : Bool} (h : (w.factor lower).isNonSingular = true)
    (v : Vector ℝ n) :
    w.factorMatrix lower *ᵥ (w.solveFactor lower v).1.get = w.permutationMatrixᵀ *ᵥ v.get := by
  have hw := (w.isNonSingular_iff lower).mp h
  rw [transpose_permutationMatrix_mulVec]
  funext i
  cases lower with
  | true =>
      have hsum := w.sum_forward hw (gather w.permutation v) 0 i (Nat.zero_le _)
      simp only [Nat.zero_le, Finset.filter_true] at hsum
      exact hsum
  | false => exact w.mulVec_forwardTransposed hw (gather w.permutation v) 0 i (Nat.zero_le _)

theorem get_mulFactor (lower : Bool) (out : Vector ℝ n) :
    (w.mulFactor lower out).get = w.factorMatrix lower *ᵥ w.rhs.get := by
  funext i
  cases lower with
  | true =>
      have hzero : (writeFrom 0 (fun _ => (0 : ℝ)) out).get i = 0 :=
        getElem_writeFrom _ _ _ _ i.isLt
      refine (w.get_addLower (writeFrom 0 (fun _ => 0) out) 0 i).trans ?_
      simp [hzero, mulVec, dotProduct]
  | false => exact (getElem_writeFrom _ _ _ _ i.isLt).trans (w.dot_take_row w.rhs i)

end

variable {n : Nat}

theorem get_injective : Function.Injective (Vector.get : Vector ℝ n → Fin n → ℝ) :=
  fun _ _ h => Vector.ext fun i hi => congrFun h ⟨i, hi⟩

/-- Solving with a factor and multiplying by it are what they are for the lower triangular matrix
in the half of the storage that it uses.  So a factor in the other form with the same matrix gives
the same answers. -/
theorem factor_answers_for_matrix (w : Workspace ℝ n) (lower : Bool)
    (h : (w.factor lower).isNonSingular = true) (v out : Vector ℝ n) :
    IsUnit (w.factorMatrix lower) ∧
      (∀ y : Vector ℝ n, (w.solveFactor lower v).1 = y ↔
        w.factorMatrix lower *ᵥ y.get = w.permutationMatrixᵀ *ᵥ v.get) ∧
      (w.mulFactor lower out).get = w.factorMatrix lower *ᵥ w.rhs.get ∧
      (w.factor lower).solve v.toList = (w.solveFactor lower v).1.toList ∧
      (w.factor lower).mulRhs = (w.mulFactor lower out).toList ∧
      ∀ (w' : Workspace ℝ n) (lower' : Bool) (out' : Vector ℝ n),
        w'.permutation = w.permutation → w'.rhs = w.rhs →
        w'.factorMatrix lower' = w.factorMatrix lower →
        (w'.factor lower').isNonSingular = true ∧
        (w'.solveFactor lower' v).1 = (w.solveFactor lower v).1 ∧
          w'.mulFactor lower' out' = w.mulFactor lower out := by
  have hunit := (w.isUnit_factorMatrix_iff lower).mpr ((w.isNonSingular_iff lower).mp h)
  have hinjective := mulVec_injective_iff_isUnit.mpr hunit
  refine ⟨hunit, fun y => ⟨?_, fun hy => ?_⟩, w.get_mulFactor lower out,
    (w.fst_solveFactor lower v).symm, (w.toList_mulFactor lower out).symm, ?_⟩
  · rintro rfl
    exact w.mulVec_solveFactor h v
  · exact get_injective (hinjective ((w.mulVec_solveFactor h v).trans hy.symm))
  · intro w' lower' out' hpermutation hrhs hmatrix
    have h' : (w'.factor lower').isNonSingular = true := by
      rw [isNonSingular_iff, hmatrix, ← isNonSingular_iff, h]
    have hpivots : w'.permutationMatrix = w.permutationMatrix := by
      rw [permutationMatrix, hpermutation, ← permutationMatrix]
    refine ⟨h', get_injective (hinjective ?_), get_injective ?_⟩
    · rw [← hmatrix, w'.mulVec_solveFactor h', hmatrix, w.mulVec_solveFactor h, hpivots]
    · rw [get_mulFactor, get_mulFactor, hmatrix, hrhs]

/-! ## One factor in two storages -/

noncomputable def below : Workspace ℝ 3 where
  permutation := #v[1, 0, 2]
  complete i := by fin_cases i <;> simp
  columnNorms := #v[0, 0, 0]
  rhs := #v[1, 2.0, 0.5]
  columns := #v[#v[-1e10, 1, 1], #v[1e2, 1e8, 0.5], #v[-1, 0.5, 1e2]]
  diagonal := #v[2.0, 1.5, 0.1]
  scratch := #v[0, 0, 0]

noncomputable def above : Workspace ℝ 3 where
  permutation := #v[1, 0, 2]
  complete i := by fin_cases i <;> simp
  columnNorms := #v[0, 0, 0]
  rhs := #v[1, 2.0, 0.5]
  columns := #v[#v[2.0, 123.0, 34.0], #v[1, 1.5, 34455.0], #v[1, 0.5, 0.1]]
  diagonal := #v[1234.0, -1.5, -1000.0]
  scratch := #v[0, 0, 0]

theorem get_three (a b c : ℝ) : (#v[a, b, c]).get = ![a, b, c] := by
  funext i
  fin_cases i <;> rfl

theorem factor_answers_for_matrix_below :
    (below.factor true).isNonSingular = true ∧
      below.factorMatrix true = !![2.0, 0, 0; 1, 1.5, 0; 1, 0.5, 0.1] ∧
      (below.solveFactor true #v[1, 2.0, 0.5]).1 = #v[1, 0, -5] ∧
      below.mulFactor true #v[0, 0, 0] = #v[2, 4, 2.05] ∧
      (above.solveFactor false #v[1, 2.0, 0.5]).1 = #v[1, 0, -5] ∧
      above.mulFactor false #v[7, 7, 7] = #v[2, 4, 2.05] := by
  have hmatrix : below.factorMatrix true = !![2.0, 0, 0; 1, 1.5, 0; 1, 0.5, 0.1] := by
    ext i j
    fin_cases i <;> fin_cases j <;> simp [factorMatrix, Vector.get_eq_getElem, below]
  have hsame : above.factorMatrix false = below.factorMatrix true := by
    rw [hmatrix]
    ext i j
    fin_cases i <;> fin_cases j <;> simp [factorMatrix, Vector.get_eq_getElem, above]
  have hnonsingular : (below.factor true).isNonSingular = true := by
    rw [isNonSingular_iff, hmatrix]
    intro j
    fin_cases j <;> norm_num
  obtain ⟨-, hsolve, hmul, -, -, hother⟩ :=
    below.factor_answers_for_matrix true hnonsingular #v[1, 2.0, 0.5] #v[0, 0, 0]
  obtain ⟨-, hsolve', hmul'⟩ := hother above false #v[7, 7, 7] rfl rfl hsame
  have hsolution : (below.solveFactor true #v[1, 2.0, 0.5]).1 = #v[1, 0, -5] := by
    have hpivots : gather below.permutation #v[1, 2.0, 0.5] = #v[(2.0 : ℝ), 1, 0.5] := rfl
    rw [hsolve, hmatrix, transpose_permutationMatrix_mulVec, hpivots, get_three, get_three]
    funext i
    fin_cases i <;> simp [mulVec]
    norm_num
  have hproduct : below.mulFactor true #v[0, 0, 0] = #v[2, 4, 2.05] := by
    apply get_injective
    rw [hmul, hmatrix, below, get_three, get_three]
    funext i
    fin_cases i <;> simp [mulVec] <;> norm_num
  exact ⟨hnonsingular, hmatrix, hsolution, hproduct, hsolve'.trans hsolution, hmul'.trans hproduct⟩

end Minima.Workspace
