import Mathlib.Data.Matrix.ColumnRowPartitioned
import Mathlib.LinearAlgebra.Matrix.Rank
import Minima.Proofs.Factorization.Decomposition
import Minima.Proofs.Factorization.Rotation

/-!
# The damped problem

The triangle that the rotations leave behind is a Cholesky factor of
`A' A + D²` in pivot order, and the point found by back substitution solves the
normal equations.
-/

namespace Minima

open Matrix

variable {m n : Nat}

/-! ## Vectors in pivot order -/

theorem gather_ofFn (σ : Equiv.Perm (Fin n)) (v : Fin n → ℝ) :
    gather (List.ofFn fun j => (σ j : Nat)) (List.ofFn v) = List.ofFn (v ∘ σ) := by
  apply List.ext_getElem
  · simp [gather]
  · intro i _ _
    simp [gather]

private theorem getElem?_foldl_set_of_not_mem {i : Nat} :
    ∀ {entries : List (Nat × ℝ)} (x : Vec ℝ), i ∉ entries.map (·.1) →
      (entries.foldl (fun x (j, a) => x.set j a) x)[i]? = x[i]?
  | [], _, _ => rfl
  | (j, a) :: entries, x, h => by
      simp only [List.map_cons, List.mem_cons, not_or] at h
      rw [List.foldl_cons, getElem?_foldl_set_of_not_mem _ h.2, List.getElem?_set_ne (Ne.symm h.1)]

private theorem getElem?_foldl_set {i : Nat} {a : ℝ} :
    ∀ {entries : List (Nat × ℝ)} (x : Vec ℝ), (entries.map (·.1)).Nodup → (i, a) ∈ entries →
      i < x.length → (entries.foldl (fun x (j, a) => x.set j a) x)[i]? = some a
  | [], _, _, hmem, _ => by simp at hmem
  | (j, b) :: entries, x, hnodup, hmem, hi => by
      rw [List.map_cons, List.nodup_cons] at hnodup
      rw [List.foldl_cons]
      cases hmem with
      | head =>
          rw [getElem?_foldl_set_of_not_mem _ hnodup.1, List.getElem?_set_self hi]
      | tail _ hmem => exact getElem?_foldl_set _ hnodup.2 hmem (by simpa using hi)

theorem scatter_ofFn (σ : Equiv.Perm (Fin n)) (v : Fin n → ℝ) :
    scatter (List.ofFn fun j => (σ j : Nat)) (List.ofFn v) = List.ofFn (v ∘ σ.symm) := by
  have hzip : (List.ofFn fun j => (σ j : Nat)).zip (List.ofFn v) =
      List.ofFn fun j => ((σ j : Nat), v j) := by
    apply List.ext_getElem
    · simp
    · intro i _ _
      simp
  have hnodup : ((List.ofFn fun j => ((σ j : Nat), v j)).map (·.1)).Nodup := by
    rw [List.map_ofFn, List.nodup_ofFn]
    intro i j hij
    exact σ.injective (Fin.ext hij)
  have hlength (entries : List (Nat × ℝ)) (x : Vec ℝ) :
      (entries.foldl (fun x (j, a) => x.set j a) x).length = x.length := by
    induction entries generalizing x with
    | nil => rfl
    | cons entry entries ih => simp [ih]
  rw [scatter, hzip]
  apply List.ext_getElem?
  intro i
  by_cases hi : i < n
  · have hmem : (i, v (σ.symm ⟨i, hi⟩)) ∈ List.ofFn fun j => ((σ j : Nat), v j) := by
      rw [List.mem_ofFn]
      exact ⟨σ.symm ⟨i, hi⟩, by simp⟩
    rw [getElem?_foldl_set _ hnodup hmem (by simpa using hi)]
    simp [hi]
  · rw [List.getElem?_eq_none (by rw [hlength]; simpa using hi),
      List.getElem?_eq_none (by simpa using hi)]

/-! ## The triangle of the factored matrix -/

theorem length_linesFrom (j : Nat) (columns : List (Head ℝ)) :
    (linesFrom j columns).length = columns.length := by
  induction columns generalizing j with
  | nil => rfl
  | cons c columns ih => simp [linesFrom, ih]

theorem getElem_linesFrom (j : Nat) (columns : List (Head ℝ)) {i : Nat}
    (hi : i < columns.length) (h : i < (linesFrom j columns).length) :
    (linesFrom j columns)[i] =
      ⟨columns[i].diagonal, (columns.drop (i + 1)).map (·.above.getD (j + i) 0)⟩ := by
  induction columns generalizing i j with
  | nil => simp at hi
  | cons c columns ih =>
      cases i with
      | zero => simp [linesFrom]
      | succ i =>
          have hi : i < columns.length := by simpa using hi
          simp only [linesFrom, List.getElem_cons_succ, List.drop_succ_cons,
            ih (j + 1) hi (by simpa [length_linesFrom] using hi), Nat.add_right_comm j 1 i,
            Nat.add_assoc]

theorem isTriangle_linesFrom (j : Nat) (columns : List (Head ℝ)) (rhs : Vec ℝ)
    (h : rhs.length = columns.length) : IsTriangle ((linesFrom j columns).zip rhs) := by
  induction columns generalizing j rhs with
  | nil => simp [linesFrom, IsTriangle]
  | cons c columns ih =>
      cases rhs with
      | nil => simp at h
      | cons b rhs =>
          have h : rhs.length = columns.length := by simpa using h
          exact ⟨by simp [length_linesFrom, h], ih (j + 1) rhs h⟩

namespace Factorization.Factors

variable {A : Matrix (Fin m) (Fin n) ℝ} {f : Factorization ℝ} {σ : Equiv.Perm (Fin n)}
  {U : Matrix (Fin m) (Fin m) ℝ}

theorem lowerMatrix_lines (h : Factors A f σ U) (hnm : n ≤ m) (b : Vec ℝ) :
    Line.lowerMatrix (Head.lines (DampedSystem.ofFactorization f b).upper) =
      .ofMatrix ((Uᵀ * A).submatrix (Fin.castLE hnm) σ)ᵀ := by
  have hpivots := h.length_pivots
  simp only [Line.lowerMatrix, Head.lines, length_linesFrom, DampedSystem.ofFactorization,
    List.length_map, hpivots, DenseMatrix.ofMatrix, DenseMatrix.mk.injEq, true_and]
  apply List.ext_getElem
  · simp [length_linesFrom, hpivots]
  · intro i hi _
    have hi : i < n := by simpa [length_linesFrom, hpivots] using hi
    rw [List.getElem_mapIdx, getElem_linesFrom 0 _ (by simpa [hpivots] using hi), List.getElem_ofFn]
    apply List.ext_getElem
    · simp [hpivots]
      omega
    · intro k _ hk
      have hk : k < n := by simpa using hk
      simp only [List.getElem_ofFn, transpose_apply, submatrix_apply]
      obtain hki | hki | hki := lt_trichotomy k i
      · rw [List.getElem_append_left (by simpa using hki), h.entry_eq_zero hki]
        simp [Vec.zeros]
      · subst hki
        rw [List.getElem_append_right (by simp), h.entry_eq_diagonal rfl (by simpa [hpivots])]
        simp
      · rw [List.getElem_append_right (by simp; omega), h.entry_eq_above hki (by simpa [hpivots])]
        obtain ⟨l, rfl⟩ : ∃ l, k = i + (l + 1) := ⟨k - (i + 1), by omega⟩
        simp [Nat.add_assoc, Nat.add_comm 1 l]

theorem transpose_mul_triangular (h : Factors A f σ U) (hnm : n ≤ m) :
    ((Uᵀ * A).submatrix (Fin.castLE hnm) σ)ᵀ * (Uᵀ * A).submatrix (Fin.castLE hnm) σ =
      (Aᵀ * A).submatrix σ σ := by
  have hmul := h.mul_eq hnm
  have hone := h.transpose_mul_self hnm
  generalize (Uᵀ * A).submatrix (Fin.castLE hnm) σ = R at hmul ⊢
  generalize U.submatrix id (Fin.castLE hnm) = Q at hmul hone
  calc Rᵀ * R = Rᵀ * (Qᵀ * Q) * R := by rw [hone, Matrix.mul_one]
    _ = (Q * R)ᵀ * (Q * R) := by simp only [transpose_mul, Matrix.mul_assoc]
    _ = (Aᵀ * A).submatrix σ σ := by rw [hmul]; rfl

theorem transpose_mulVec_rhs (h : Factors A f σ U) (hnm : n ≤ m) (b : Fin m → ℝ) :
    ((Uᵀ * A).submatrix (Fin.castLE hnm) σ)ᵀ *ᵥ (fun i => (Uᵀ *ᵥ b) (Fin.castLE hnm i)) =
      (Aᵀ *ᵥ b) ∘ σ := by
  have hmul := h.mul_eq hnm
  generalize (Uᵀ * A).submatrix (Fin.castLE hnm) σ = R at hmul ⊢
  calc Rᵀ *ᵥ (U.submatrix id (Fin.castLE hnm))ᵀ *ᵥ b
      = (U.submatrix id (Fin.castLE hnm) * R)ᵀ *ᵥ b := by rw [mulVec_mulVec, transpose_mul]
    _ = (Aᵀ *ᵥ b) ∘ σ := by rw [hmul]; rfl

theorem rhs_ofFactorization (h : Factors A f σ U) (hnm : n ≤ m) (b : Fin m → ℝ) :
    (DampedSystem.ofFactorization f (List.ofFn b)).rhs =
      List.ofFn fun i => (Uᵀ *ᵥ b) (Fin.castLE hnm i) := by
  rw [DampedSystem.ofFactorization, h.transposed, h.length_pivots, Vec.take_ofFn hnm]

end Factorization.Factors

/-! ## The triangle with a diagonal -/

section triangle

variable {d : Fin n → ℝ} {before after : List (Line ℝ × ℝ)} {B L : Matrix (Fin n) (Fin n) ℝ}
  {b c : Fin n → ℝ}

theorem DampedSystem.Keeps.lower_eq
    (h : DampedSystem.Keeps before after
      fun x _ y _ => Vec.dot (Vec.mul (List.ofFn d) x) (Vec.mul (List.ofFn d) y))
    (hB : Line.lowerMatrix (before.map (·.1)) = .ofMatrix B) (hb : before.map (·.2) = List.ofFn b)
    (hL : Line.lowerMatrix (after.map (·.1)) = .ofMatrix L) (hc : after.map (·.2) = List.ofFn c) :
    L * Lᵀ = B * Bᵀ + diagonal d * diagonal d ∧ L *ᵥ c = B *ᵥ b := by
  obtain ⟨-, -, r, hr⟩ := h
  have hlength := length_of_lowerMatrix hB
  have form (x y : Fin n → ℝ) (u : ℝ) : (Lᵀ *ᵥ x) ⬝ᵥ (Lᵀ *ᵥ y + u • c) =
      (Bᵀ *ᵥ x) ⬝ᵥ (Bᵀ *ᵥ y + u • b) + (d * x) ⬝ᵥ (d * y) := by
    have := hr (List.ofFn x) (List.ofFn y) 0 u (by simp [hlength]) (by simp [hlength])
    simpa only [lineValues_ofFn hB hb, lineValues_ofFn hL hc, Vec.dot_ofFn, Vec.mul_ofFn, zero_smul,
      add_zero, zero_mul, mul_zero] using this
  constructor
  · ext i j
    have hij := form (Pi.single i 1) (Pi.single j 1) 0
    simp only [zero_smul, add_zero, mulVec_single_one] at hij
    rw [Matrix.add_apply, diagonal_mul_diagonal, diagonal_apply]
    refine hij.trans (congrArg₂ (· + ·) rfl ?_)
    by_cases h : i = j
    · simp [dotProduct, Pi.single_apply, h]
    · simp [dotProduct, Pi.single_apply, h, Ne.symm h]
  · ext i
    have hi := form (Pi.single i 1) 0 1
    simp only [mulVec_zero, zero_add, one_smul, mul_zero, dotProduct_zero, add_zero,
      mulVec_single_one] at hi
    exact hi

structure IsRegular (n : Nat) (lines : List (Line ℝ × ℝ)) : Prop where
  length_eq : lines.length = n
  isTriangle : IsTriangle lines
  diagonal_ne_zero : ∀ l ∈ lines, l.1.diagonal ≠ 0

theorem diagonal_ne_zero_of_isUnit {M : Matrix (Fin n) (Fin n) ℝ} {σ : Equiv.Perm (Fin n)}
    {lines : List (Line ℝ × ℝ)} (hL : Line.lowerMatrix (lines.map (·.1)) = .ofMatrix L)
    (hgram : L * Lᵀ = M.submatrix σ σ)
    (hunit : IsUnit M) : ∀ l ∈ lines, l.1.diagonal ≠ 0 := by
  have hdet : L.det ≠ 0 := by
    intro hzero
    have hdet := congrArg det hgram
    rw [det_mul, hzero, zero_mul, det_submatrix_equiv_self] at hdet
    exact ((isUnit_iff_isUnit_det M).mp hunit).ne_zero hdet.symm
  intro l hl
  obtain ⟨j, hj, rfl⟩ := List.mem_iff_getElem.mp hl
  rw [diagonal_of_lowerMatrix hL ⟨j, length_of_lowerMatrix hL ▸ hj⟩ hj]
  rw [det_of_isLowerTriangular L (isLowerTriangular_of_lowerMatrix hL)] at hdet
  exact Finset.prod_ne_zero_iff.mp hdet _ (Finset.mem_univ _)

end triangle

namespace Factorization.Factors

variable {A : Matrix (Fin m) (Fin n) ℝ} {f : Factorization ℝ} {σ : Equiv.Perm (Fin n)}
  {U : Matrix (Fin m) (Fin m) ℝ}

/-- The triangle that the rotations leave is the Cholesky factor, and its
right hand side goes with that of the normal equations. -/
theorem exists_lower (h : Factors A f σ U) (hnm : n ≤ m) (b : Fin m → ℝ) (d : Fin n → ℝ) :
    ∃ (lines : List (Line ℝ × ℝ)) (L : Matrix (Fin n) (Fin n) ℝ) (c : Fin n → ℝ),
      DampedSystem.absorbDiagonal (gather f.permutation (List.ofFn d))
        ((Head.lines (DampedSystem.ofFactorization f (List.ofFn b)).upper).zip
          (DampedSystem.ofFactorization f (List.ofFn b)).rhs) = lines ∧
      Line.lowerMatrix (lines.map (·.1)) = .ofMatrix L ∧
      lines.map (·.2) = List.ofFn c ∧
      L * Lᵀ = (Aᵀ * A + diagonal d * diagonal d).submatrix σ σ ∧
      L *ᵥ c = (Aᵀ *ᵥ b) ∘ σ ∧ IsTriangle lines := by
  have hrhs := h.rhs_ofFactorization hnm b
  have hlower := h.lowerMatrix_lines hnm (List.ofFn b)
  have hheads : (DampedSystem.ofFactorization f (List.ofFn b)).upper.length = n := by
    simp [DampedSystem.ofFactorization, h.length_pivots]
  have hzip : (Head.lines (DampedSystem.ofFactorization f (List.ofFn b)).upper).length =
      (DampedSystem.ofFactorization f (List.ofFn b)).rhs.length := by
    rw [Head.lines, length_linesFrom, hheads, hrhs, List.length_ofFn]
  have htriangle := isTriangle_linesFrom 0
    (DampedSystem.ofFactorization f (List.ofFn b)).upper
    (DampedSystem.ofFactorization f (List.ofFn b)).rhs (by rw [hrhs, hheads]; simp)
  rw [← List.map_fst_zip hzip.le] at hlower
  rw [← List.map_snd_zip hzip.ge] at hrhs
  have hlength := length_of_lowerMatrix hlower
  rw [h.permutation, gather_ofFn]
  have hkeeps := DampedSystem.keeps_absorbDiagonal htriangle (List.ofFn (d ∘ σ))
    (by rw [← Head.lines, hlength, List.length_ofFn])
  obtain ⟨L, hL⟩ := hkeeps.2.1.exists_lowerMatrix (hkeeps.1.trans hlength)
  have hc := Vec.ofFn_toFn (n := n) (a := (DampedSystem.absorbDiagonal (List.ofFn (d ∘ σ)) _).map
    (·.2)) ((List.length_map _).trans (hkeeps.1.trans hlength))
  obtain ⟨hgram, hnormal⟩ := hkeeps.lower_eq hlower hrhs hL hc.symm
  refine ⟨_, L, _, rfl, hL, hc.symm, ?_, ?_, hkeeps.2.1⟩
  · rw [hgram, transpose_transpose, h.transpose_mul_triangular hnm, diagonal_mul_diagonal,
      diagonal_mul_diagonal, submatrix_add, Pi.add_apply, Pi.add_apply, submatrix_diagonal_equiv]
    rfl
  · rw [hnormal, h.transpose_mulVec_rhs hnm]

theorem solve_eq (h : Factors A f σ U) (hnm : n ≤ m) (b : Fin m → ℝ) (d : Fin n → ℝ)
    (hunit : IsUnit (Aᵀ * A + diagonal d * diagonal d)) (lower : List (Line ℝ)) :
    ∃ x : Fin n → ℝ,
      (DampedSystem.solve { DampedSystem.ofFactorization f (List.ofFn b) with lower }
        (List.ofFn d)).1 = List.ofFn x ∧
      (Aᵀ * A + diagonal d * diagonal d) *ᵥ x = Aᵀ *ᵥ b := by
  obtain ⟨lines, L, c, hlines, hL, hc, hgram, hnormal, -⟩ := h.exists_lower hnm b d
  generalize Aᵀ * A + diagonal d * diagonal d = M at hunit hgram ⊢
  have hlength := length_of_lowerMatrix hL
  have hregular := diagonal_ne_zero_of_isUnit hL hgram hunit
  obtain ⟨hlength', hzero⟩ := lineValues_solveUpper hregular
  have hz := Vec.ofFn_toFn (hlength'.trans hlength)
  generalize Vec.toFn n (Line.solveUpper (lines.map (·.1)) (lines.map (·.2))) = z at hz
  have hsolution : Lᵀ *ᵥ z = c := by
    rw [← hz, lineValues_ofFn hL hc, hlength, Vec.zeros_eq_ofFn] at hzero
    have hzero := List.ofFn_injective hzero
    rw [neg_one_smul, ← sub_eq_add_neg] at hzero
    exact sub_eq_zero.mp hzero
  refine ⟨z ∘ σ.symm, ?_, ?_⟩
  · simp only [DampedSystem.solve]
    rw [show (DampedSystem.ofFactorization f (List.ofFn b)).permutation = f.permutation from rfl,
      hlines, solveRegular_eq_solveUpper hregular, ← hz, h.permutation, scatter_ofFn]
  · have hM : M.submatrix σ σ *ᵥ z = (Aᵀ *ᵥ b) ∘ σ := by
      rw [← hgram, ← mulVec_mulVec, hsolution, hnormal]
    rw [submatrix_mulVec_equiv] at hM
    exact σ.surjective.injective_comp_right hM

theorem exists_regular_lower (h : Factors A f σ U) (hnm : n ≤ m) (b : Fin m → ℝ) (d : Fin n → ℝ)
    (hunit : IsUnit (Aᵀ * A + diagonal d * diagonal d)) (lower : List (Line ℝ)) :
    ∃ lines : List (Line ℝ × ℝ), IsRegular n lines ∧
      (DampedSystem.solve { DampedSystem.ofFactorization f (List.ofFn b) with lower }
        (List.ofFn d)).2 =
          { DampedSystem.ofFactorization f (List.ofFn b) with lower := lines.map (·.1) } := by
  obtain ⟨lines, L, c, hlines, hL, -, hgram, -, htriangle⟩ := h.exists_lower hnm b d
  refine ⟨lines, ⟨length_of_lowerMatrix hL, htriangle, ?_⟩, ?_⟩
  · exact diagonal_ne_zero_of_isUnit hL hgram hunit
  · rw [← hlines]
    rfl

end Factorization.Factors

/-! ## The solution -/

theorem rank_fromRows_diagonal_iff {A : Matrix (Fin m) (Fin n) ℝ} {d : Fin n → ℝ} :
    (fromRows A (diagonal d)).rank = n ↔ IsUnit (Aᵀ * A + diagonal d * diagonal d) := by
  have hgram : (fromRows A (diagonal d))ᵀ * fromRows A (diagonal d) =
      Aᵀ * A + diagonal d * diagonal d := by
    rw [transpose_fromRows, fromCols_mul_fromRows, diagonal_transpose]
  rw [← rank_transpose_mul_self, hgram, ← linearIndependent_cols_iff_isUnit,
    linearIndependent_iff_card_eq_finrank_span, Set.finrank, ← rank_eq_finrank_span_cols,
    Fintype.card_fin, eq_comm]

namespace DampedSystem

noncomputable def padded (pivoting : Bool) (a : DenseMatrix ℝ) (b : Vec ℝ) : DampedSystem ℝ :=
  ofFactorization (Factorization.factor .plain pivoting (a.padRows a.width))
    (b ++ Vec.zeros (a.width - a.rows))

/-- The system after it was solved for one diagonal after another. -/
noncomputable def solveEach (s : DampedSystem ℝ) (diagonals : List (Vec ℝ)) : DampedSystem ℝ :=
  diagonals.foldl (fun s d => (s.solve d).2) s

theorem solveEach_append (s : DampedSystem ℝ) (previous : List (Vec ℝ)) (d : Vec ℝ) :
    s.solveEach (previous ++ [d]) = (s.solve d).2 := by
  have hlower (s : DampedSystem ℝ) : ∃ lower, s.solveEach previous = { s with lower } := by
    unfold solveEach
    induction previous generalizing s with
    | nil => exact ⟨s.lower, rfl⟩
    | cons e previous ih => exact ih (s.solve e).2
  obtain ⟨lower, hlower⟩ := hlower s
  have happend : s.solveEach (previous ++ [d]) = ((s.solveEach previous).solve d).2 := by
    simp [solveEach]
  rw [happend, hlower]
  rfl

end DampedSystem

/-- A stack of full rank has one least squares point, the solution of the normal
equations.  The triangle that is left is their Cholesky factor in pivot order,
whatever the rank and whichever diagonals came before. -/
theorem leastSquares_solves_normal_equations (A : Matrix (Fin m) (Fin n) ℝ) (b : Fin m → ℝ)
    (pivoting : Bool) (d : Option (Fin n → ℝ)) (previous : List (Vec ℝ)) :
    ((fromRows A (diagonal (d.getD 0))).rank = n →
      ∃ x, leastSquares .plain pivoting (.ofMatrix A) (List.ofFn b) (d.map List.ofFn) =
          .ok (List.ofFn x) ∧
        ∀ y, (Aᵀ * A + diagonal (d.getD 0) ^ 2) *ᵥ y = Aᵀ *ᵥ b ↔ y = x) ∧
    ∃ (σ : Equiv.Perm (Fin n)) (L : Matrix (Fin n) (Fin n) ℝ),
      (DampedSystem.padded pivoting (.ofMatrix A) (List.ofFn b)).permutation =
        List.ofFn (fun j => (σ j : Nat)) ∧
      Line.lowerMatrix ((DampedSystem.padded pivoting (.ofMatrix A) (List.ofFn b)).solveEach
        (previous ++ [List.ofFn (d.getD 0)])).lower = .ofMatrix L ∧
      L.IsLowerTriangular ∧
      (Aᵀ * A + diagonal (d.getD 0) ^ 2).submatrix σ σ = L * Lᵀ := by
  have hnm : n ≤ m + (n - m) := by omega
  obtain ⟨σ, U, -, h⟩ :=
    Factorization.exists_factors pivoting (DenseMatrix.pad (n - m) A) hnm
  have hrhs : List.ofFn b ++ Vec.zeros (n - m) =
      List.ofFn (Fin.append b fun _ : Fin (n - m) => 0) := by
    rw [Vec.zeros_eq_ofFn, List.ofFn_fin_append]
  have hgram := DenseMatrix.transpose_pad_mul_pad (n - m) A
  rw [sq]
  constructor
  · intro hrank
    have hunit := rank_fromRows_diagonal_iff.mp hrank
    obtain ⟨x, hx, hnormal⟩ := h.solve_eq hnm (Fin.append b fun _ => 0) (d.getD 0)
      (by rwa [hgram]) []
    rw [hgram, DenseMatrix.transpose_pad_mulVec] at hnormal
    refine ⟨x, ?_, ?_⟩
    · have hd : (d.map List.ofFn).getD (Vec.zeros n) = List.ofFn (d.getD 0) := by
        cases d with
        | none => exact Vec.zeros_eq_ofFn n
        | some d => rfl
      simp only [leastSquares, DenseMatrix.width_ofMatrix, DenseMatrix.rows_ofMatrix, hd,
        List.length_ofFn, ne_eq, not_true_eq_false, if_false, DenseMatrix.padRows_ofMatrix, hrhs]
      exact congrArg _ hx
    · intro y
      rw [← hnormal]
      exact (mulVec_injective_iff_isUnit.mpr hunit).eq_iff
  · obtain ⟨lines, L, c, hlines, hL, -, hlower, -⟩ :=
      h.exists_lower hnm (Fin.append b fun _ => 0) (d.getD 0)
    refine ⟨σ, L, ?_, ?_, isLowerTriangular_of_lowerMatrix hL, ?_⟩
    · rw [DampedSystem.padded, DenseMatrix.width_ofMatrix, DenseMatrix.padRows_ofMatrix]
      exact h.permutation
    · rw [DampedSystem.solveEach_append, DampedSystem.padded, DenseMatrix.width_ofMatrix,
        DenseMatrix.rows_ofMatrix, DenseMatrix.padRows_ofMatrix, hrhs, ← hL, ← hlines]
      rfl
    · rw [hlower, hgram]

theorem leastSquares_one_equation :
    (fromRows !![(1 : ℝ), 1] (diagonal ((some ![1, 0]).getD 0))).rank = 2 ∧
      leastSquares .plain true (.ofMatrix !![(1 : ℝ), 1]) (List.ofFn ![3])
        ((some ![1, 0]).map List.ofFn) = .ok (List.ofFn ![0, 3]) := by
  have hrank : (fromRows !![(1 : ℝ), 1] (diagonal ((some ![1, 0]).getD 0))).rank = 2 := by
    rw [rank_fromRows_diagonal_iff, isUnit_iff_isUnit_det]
    norm_num [det_fin_two, mul_apply]
  obtain ⟨x, hx, hunique⟩ :=
    (leastSquares_solves_normal_equations !![(1 : ℝ), 1] ![3] true (some ![1, 0]) []).1 hrank
  have hsolution : ![0, 3] = x := by
    rw [← hunique]
    ext i
    fin_cases i <;> simp [sq, mulVec, dotProduct, Fin.sum_univ_two, mul_apply]
  exact ⟨hrank, hsolution ▸ hx⟩

end Minima
