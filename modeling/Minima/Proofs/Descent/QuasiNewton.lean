import Mathlib.Algebra.Order.Star.Real
import Mathlib.LinearAlgebra.Matrix.PosDef
import Mathlib.Tactic.FieldSimp
import Minima.Proofs.Lengths
import Minima.Proofs.Exact.Matrix

/-!
# The inverse Hessian in exact arithmetic

A quasi-Newton strategy starts from the identity.  An update adds to the form of
the old matrix two squares and takes away what the old form has in common with
the change of the gradient; the rest of the form is never negative, and where it
vanishes the first square does not.  So the matrix stays symmetric and positive
definite, whatever points and gradients the strategy is shown, and its
directions descend.
-/

namespace Minima

open Matrix

variable {n : Nat}

/-! ## The update of a matrix -/

noncomputable def secantUpdate (A : Matrix (Fin n) (Fin n) ℝ) (s y : Fin n → ℝ) :
    Matrix (Fin n) (Fin n) ℝ :=
  let w := A *ᵥ y
  let u := (1 / (s ⬝ᵥ y)) • s - (1 / (y ⬝ᵥ w)) • w
  A + (1 / (s ⬝ᵥ y)) • vecMulVec s s + (-(1 / (y ⬝ᵥ w))) • vecMulVec w w +
    (y ⬝ᵥ w) • vecMulVec u u

variable {A : Matrix (Fin n) (Fin n) ℝ} {s y : Fin n → ℝ}

theorem isSymm_vecMulVec_self (u : Fin n → ℝ) : (vecMulVec u u).IsSymm := by
  rw [Matrix.IsSymm, transpose_vecMulVec]

theorem isSymm_secantUpdate (hA : A.IsSymm) (s y : Fin n → ℝ) : (secantUpdate A s y).IsSymm :=
  (((hA.add ((isSymm_vecMulVec_self _).smul _)).add ((isSymm_vecMulVec_self _).smul _)).add
    ((isSymm_vecMulVec_self _).smul _))

theorem secantUpdate_mulVec (A : Matrix (Fin n) (Fin n) ℝ) (s y v : Fin n → ℝ) :
    secantUpdate A s y *ᵥ v =
      A *ᵥ v + (1 / (s ⬝ᵥ y) * (s ⬝ᵥ v)) • s - (1 / (y ⬝ᵥ A *ᵥ y) * (A *ᵥ y ⬝ᵥ v)) • (A *ᵥ y) +
        (y ⬝ᵥ A *ᵥ y * (((1 / (s ⬝ᵥ y)) • s - (1 / (y ⬝ᵥ A *ᵥ y)) • (A *ᵥ y)) ⬝ᵥ v)) •
          ((1 / (s ⬝ᵥ y)) • s - (1 / (y ⬝ᵥ A *ᵥ y)) • (A *ᵥ y)) := by
  simp only [secantUpdate, add_mulVec, neg_mulVec, smul_mulVec, vecMulVec_mulVec,
    op_smul_eq_smul, smul_smul, neg_smul, sub_eq_add_neg]

/-- After an update the matrix takes the change of the gradient to the step. -/
theorem secantUpdate_mulVec_self (hs : s ⬝ᵥ y ≠ 0) (hy : y ⬝ᵥ A *ᵥ y ≠ 0) :
    secantUpdate A s y *ᵥ y = s := by
  have hu : ((1 / (s ⬝ᵥ y)) • s - (1 / (y ⬝ᵥ A *ᵥ y)) • (A *ᵥ y)) ⬝ᵥ y = 0 := by
    rw [sub_dotProduct, smul_dotProduct, smul_dotProduct, dotProduct_comm (A *ᵥ y)]
    simp [hs, hy]
  rw [secantUpdate_mulVec, hu, dotProduct_comm (A *ᵥ y)]
  simp [hs, hy]

/-! ## Positive definiteness -/

/-- The form of the updated matrix: the old one at what is left of `v` without its part
along `y`, and two squares. -/
theorem dotProduct_secantUpdate (hA : A.IsSymm) (hy : y ⬝ᵥ A *ᵥ y ≠ 0) (v : Fin n → ℝ) :
    v ⬝ᵥ secantUpdate A s y *ᵥ v =
      (v - ((y ⬝ᵥ A *ᵥ v) / (y ⬝ᵥ A *ᵥ y)) • y) ⬝ᵥ
          A *ᵥ (v - ((y ⬝ᵥ A *ᵥ v) / (y ⬝ᵥ A *ᵥ y)) • y) +
        (s ⬝ᵥ v) ^ 2 / (s ⬝ᵥ y) +
        y ⬝ᵥ A *ᵥ y * ((s ⬝ᵥ v) / (s ⬝ᵥ y) - (y ⬝ᵥ A *ᵥ v) / (y ⬝ᵥ A *ᵥ y)) ^ 2 := by
  have hw (x : Fin n → ℝ) : A *ᵥ y ⬝ᵥ x = y ⬝ᵥ A *ᵥ x := by
    rw [dotProduct_mulVec, ← mulVec_transpose, hA.eq]
  have hvy : v ⬝ᵥ A *ᵥ y = y ⬝ᵥ A *ᵥ v := by
    rw [dotProduct_comm, hw]
  rw [secantUpdate_mulVec]
  simp only [dotProduct_add, dotProduct_sub, dotProduct_smul, sub_dotProduct, smul_dotProduct,
    mulVec_sub, mulVec_smul, smul_eq_mul, hw, hvy, dotProduct_comm v s]
  field_simp
  ring

theorem dotProduct_mulVec_pos (hA : A.PosDef) {v : Fin n → ℝ} (hv : v ≠ 0) :
    0 < v ⬝ᵥ A *ᵥ v := by
  simpa using hA.dotProduct_mulVec_pos hv

theorem ne_zero_of_dotProduct_pos (h : 0 < s ⬝ᵥ y) : y ≠ 0 := by
  rintro rfl
  simp at h

theorem isSymm_of_posDef (hA : A.PosDef) : A.IsSymm :=
  (conjTranspose_eq_transpose_of_trivial A).symm.trans hA.isHermitian

theorem posDef_secantUpdate (hA : A.PosDef) (h : 0 < s ⬝ᵥ y) : (secantUpdate A s y).PosDef := by
  have hsymm := isSymm_of_posDef hA
  have hy := dotProduct_mulVec_pos hA (ne_zero_of_dotProduct_pos h)
  refine PosDef.of_dotProduct_mulVec_pos ?_ fun v hv => ?_
  · exact (conjTranspose_eq_transpose_of_trivial _).trans (isSymm_secantUpdate hsymm s y)
  rw [star_trivial, dotProduct_secantUpdate hsymm hy.ne']
  have hsquare : 0 ≤ y ⬝ᵥ A *ᵥ y *
      ((s ⬝ᵥ v) / (s ⬝ᵥ y) - (y ⬝ᵥ A *ᵥ v) / (y ⬝ᵥ A *ᵥ y)) ^ 2 :=
    mul_nonneg hy.le (sq_nonneg _)
  by_cases hrest : v - ((y ⬝ᵥ A *ᵥ v) / (y ⬝ᵥ A *ᵥ y)) • y = 0
  · -- `v` is a multiple of `y`, and the step has a product with `y`
    obtain ⟨t, rfl⟩ : ∃ t : ℝ, v = t • y := ⟨_, sub_eq_zero.mp hrest⟩
    have ht : t ≠ 0 := by
      rintro rfl
      exact hv (zero_smul ℝ y)
    have hpos : 0 < (s ⬝ᵥ t • y) ^ 2 / (s ⬝ᵥ y) := by
      rw [dotProduct_smul, smul_eq_mul]
      positivity
    rw [hrest]
    simp only [zero_dotProduct]
    linarith
  · have hpos := dotProduct_mulVec_pos hA hrest
    have hstep : 0 ≤ (s ⬝ᵥ v) ^ 2 / (s ⬝ᵥ y) := div_nonneg (sq_nonneg _) h.le
    linarith

/-! ## The update of the strategy -/

namespace Strategy

def Curved (step change : Vec ℝ) : Prop :=
  Scalar.sqrt (curvatureEpsilon * Vec.normSq change * Vec.normSq step) < Vec.laneDot step change

theorem dotProduct_pos_of_curved (h : Curved (List.ofFn s) (List.ofFn y)) : 0 < s ⬝ᵥ y := by
  rw [Curved, Vec.laneDot_eq_dot, Vec.dot_ofFn] at h
  exact (Real.sqrt_nonneg _).trans_lt h

open Classical in
theorem updateInverse_ofMatrix (A : Matrix (Fin n) (Fin n) ℝ) (s y : Fin n → ℝ) :
    updateInverse (.ofMatrix A) (List.ofFn s) (List.ofFn y) =
      .ofMatrix (if Curved (List.ofFn s) (List.ofFn y) then secantUpdate A s y else A) := by
  unfold updateInverse
  simp only [DenseMatrix.mulVec_ofMatrix]
  by_cases h : Curved (List.ofFn s) (List.ofFn y)
  · rw [if_pos h, if_pos (by exact h)]
    simp only [Vec.laneDot_eq_dot, Vec.dot_ofFn, Vec.scale_ofFn, Vec.sub_ofFn,
      DenseMatrix.addOuter_ofMatrix]
    rfl
  · rw [if_neg h, if_neg (by exact h)]

/-! ## Calls of the strategy -/

/-- What a caller may ask of a strategy. -/
inductive Call where
  | reset (dimension : Nat)
  | next (previous current : Visited ℝ) (direction : Vec ℝ)

def Call.Fits (n : Nat) : Call → Prop
  | reset dimension => dimension = n
  | next previous current _ =>
      previous.x.length = n ∧ previous.gradient.length = n ∧ current.x.length = n ∧
        current.gradient.length = n

noncomputable def after (s : Strategy ℝ) : Call → Checked ℝ (Strategy ℝ)
  | .reset dimension => .ok (s.reset dimension)
  | .next previous current direction => (·.2) <$> s.next previous current direction

variable {previous current : Visited ℝ}

open Classical in
theorem next_ofMatrix (A : Matrix (Fin n) (Fin n) ℝ) (direction : Vec ℝ)
    (h : (Call.next previous current direction).Fits n) :
    next (.quasiNewton (.ofMatrix A)) previous current direction =
      let step := Vec.sub current.x previous.x
      let change := Vec.sub current.gradient previous.gradient
      let B := if Curved step change then
          secantUpdate A (Vec.toFn n step) (Vec.toFn n change) else A
      .ok (Vec.neg (List.ofFn (B *ᵥ Vec.toFn n current.gradient)), .quasiNewton (.ofMatrix B)) := by
  obtain ⟨hx', hg', hx, hg⟩ := h
  have hstep : (Vec.sub current.x previous.x).length = n := by simp [Vec.sub, hx, hx']
  have hchange : (Vec.sub current.gradient previous.gradient).length = n := by
    simp [Vec.sub, hg, hg']
  have hupdate := updateInverse_ofMatrix A (Vec.toFn n (Vec.sub current.x previous.x))
    (Vec.toFn n (Vec.sub current.gradient previous.gradient))
  rw [Vec.ofFn_toFn hstep, Vec.ofFn_toFn hchange] at hupdate
  simp only [next, DenseMatrix.rows_ofMatrix, hx, if_true, bind, Except.bind, pure, Except.pure,
    Vec.sub?_eq_ok (hx.trans hx'.symm), Vec.sub?_eq_ok (hg.trans hg'.symm),
    requireSame_eq_ok hchange.symm, hupdate]
  rw [← DenseMatrix.mulVec_ofMatrix, Vec.ofFn_toFn hg]

theorem laneDot_neg_mulVec_neg (hA : A.PosDef) {g : Vec ℝ} (hlength : g.length = n)
    (hg : g ≠ Vec.zeros n) :
    Vec.laneDot g (Vec.neg (List.ofFn (A *ᵥ Vec.toFn n g))) < 0 := by
  have hne : Vec.toFn n g ≠ 0 := by
    intro hzero
    apply hg
    rw [← Vec.ofFn_toFn hlength, hzero, Vec.zeros_eq_ofFn]
    rfl
  nth_rewrite 1 [← Vec.ofFn_toFn hlength]
  rw [Vec.neg_ofFn, Vec.laneDot_eq_dot, Vec.dot_ofFn, dotProduct_neg]
  exact neg_neg_of_pos (dotProduct_mulVec_pos hA hne)

/-- What the strategy makes of a step: the matrix `A` becomes `B`, and `d` is the direction. -/
structure Learns (previous current : Visited ℝ) (A B : Matrix (Fin n) (Fin n) ℝ) (d : Vec ℝ) :
    Prop where
  isSymm : B.IsSymm
  posDef : B.PosDef
  secant : Curved (Vec.sub current.x previous.x) (Vec.sub current.gradient previous.gradient) →
    (DenseMatrix.ofMatrix B).mulVec (Vec.sub current.gradient previous.gradient) =
      Vec.sub current.x previous.x
  skipped : ¬ Curved (Vec.sub current.x previous.x) (Vec.sub current.gradient previous.gradient) →
    B = A
  descends : current.gradient ≠ Vec.zeros n → Vec.laneDot current.gradient d < 0

theorem exists_learns (hA : A.PosDef) (direction : Vec ℝ)
    (h : (Call.next previous current direction).Fits n) :
    ∃ (d : Vec ℝ) (B : Matrix (Fin n) (Fin n) ℝ),
      next (.quasiNewton (.ofMatrix A)) previous current direction =
          .ok (d, .quasiNewton (.ofMatrix B)) ∧ Learns previous current A B d := by
  have hnext := next_ofMatrix A direction h
  obtain ⟨hx', hg', hx, hg⟩ := h
  have hstep : (Vec.sub current.x previous.x).length = n := by simp [Vec.sub, hx, hx']
  have hchange : (Vec.sub current.gradient previous.gradient).length = n := by
    simp [Vec.sub, hg, hg']
  by_cases hcurved :
      Curved (Vec.sub current.x previous.x) (Vec.sub current.gradient previous.gradient)
  · simp only [if_pos hcurved] at hnext
    rw [← Vec.ofFn_toFn hstep, ← Vec.ofFn_toFn hchange] at hcurved
    have hpos := dotProduct_pos_of_curved hcurved
    have hB := posDef_secantUpdate hA hpos
    refine ⟨_, _, hnext, ?_⟩
    exact {
      isSymm := isSymm_of_posDef hB
      posDef := hB
      secant := by
        intro _
        have hy := dotProduct_mulVec_pos hA (ne_zero_of_dotProduct_pos hpos)
        nth_rewrite 2 [← Vec.ofFn_toFn hchange]
        rw [DenseMatrix.mulVec_ofMatrix, secantUpdate_mulVec_self hpos.ne' hy.ne',
          Vec.ofFn_toFn hstep]
      skipped := by
        intro hskipped
        rw [Vec.ofFn_toFn hstep, Vec.ofFn_toFn hchange] at hcurved
        exact absurd hcurved hskipped
      descends := laneDot_neg_mulVec_neg hB hg
    }
  · simp only [if_neg hcurved] at hnext
    refine ⟨_, _, hnext, ?_⟩
    exact {
      isSymm := isSymm_of_posDef hA
      posDef := hA
      secant := fun h => absurd h hcurved
      skipped := fun _ => rfl
      descends := laneDot_neg_mulVec_neg hA hg
    }

theorem exists_after_eq (hA : A.PosDef) {c : Call} (h : c.Fits n) :
    ∃ B : Matrix (Fin n) (Fin n) ℝ,
      after (.quasiNewton (.ofMatrix A)) c = .ok (.quasiNewton (.ofMatrix B)) ∧ B.PosDef := by
  cases c with
  | reset dimension =>
      obtain rfl : dimension = n := h
      exact ⟨1, by rw [after, reset, DenseMatrix.identity_eq_ofMatrix], .one⟩
  | next previous current direction =>
      obtain ⟨d, B, hnext, hlearns⟩ := exists_learns hA direction h
      exact ⟨B, by rw [after, hnext]; rfl, hlearns.posDef⟩

theorem exists_foldlM_after_eq (hA : A.PosDef) {calls : List Call} (h : ∀ c ∈ calls, c.Fits n) :
    ∃ B : Matrix (Fin n) (Fin n) ℝ,
      calls.foldlM after (.quasiNewton (.ofMatrix A)) = .ok (.quasiNewton (.ofMatrix B)) ∧
        B.PosDef := by
  induction calls generalizing A with
  | nil => exact ⟨A, rfl, hA⟩
  | cons c calls ih =>
      obtain ⟨B, hafter, hB⟩ := exists_after_eq hA (h c List.mem_cons_self)
      obtain ⟨C, hcalls, hC⟩ := ih hB fun c hc => h c (List.mem_cons_of_mem _ hc)
      refine ⟨C, ?_, hC⟩
      rw [List.foldlM_cons, hafter]
      exact hcalls

/-- After a reset to dimension `n` and any calls about that dimension, the inverse Hessian is
symmetric and positive definite.  One more step keeps it so; the new matrix takes the change
of the gradient to the step unless the update is skipped, and the direction descends. -/
theorem inverseHessian_posDef (h : DenseMatrix ℝ) (calls : List Call)
    (hcalls : ∀ c ∈ calls, c.Fits n) :
    ∃ A : Matrix (Fin n) (Fin n) ℝ,
      calls.foldlM after (reset n (.quasiNewton h)) = .ok (.quasiNewton (.ofMatrix A)) ∧
        A.IsSymm ∧ A.PosDef ∧
        ∀ previous current direction, (Call.next previous current direction).Fits n →
          ∃ (d : Vec ℝ) (B : Matrix (Fin n) (Fin n) ℝ),
            next (.quasiNewton (.ofMatrix A)) previous current direction =
                .ok (d, .quasiNewton (.ofMatrix B)) ∧
              Learns previous current A B d := by
  obtain ⟨A, hA, hposDef⟩ :=
    exists_foldlM_after_eq (A := (1 : Matrix (Fin n) (Fin n) ℝ)) .one hcalls
  rw [← DenseMatrix.identity_eq_ofMatrix] at hA
  exact ⟨A, hA, isSymm_of_posDef hposDef, hposDef,
    fun _ _ direction hfits => exists_learns hposDef direction hfits⟩

theorem inverseHessian_posDef_plane :
    ∃ A : Matrix (Fin 2) (Fin 2) ℝ,
      List.foldlM after (reset 2 quasiNewtonUnset)
          [.next ⟨[0, 0], [0, 0], 0⟩ ⟨[1, 1], [2, 6], 40⟩ [0, 0]] =
        .ok (.quasiNewton (.ofMatrix A)) ∧
        A.PosDef ∧
        ∃ (d : Vec ℝ) (B : Matrix (Fin 2) (Fin 2) ℝ),
          next (.quasiNewton (.ofMatrix A)) ⟨[1, 1], [2, 6], 40⟩ ⟨[2, 2], [4, 12], 160⟩ [-1, -1] =
              .ok (d, .quasiNewton (.ofMatrix B)) ∧
            B.PosDef ∧ (DenseMatrix.ofMatrix B).mulVec [2, 6] = [1, 1] ∧
            Vec.laneDot [4, 12] d < 0 := by
  have hcalls : ∀ c ∈ [Call.next ⟨[0, 0], [0, 0], 0⟩ ⟨[1, 1], [2, 6], 40⟩ [0, 0]], c.Fits 2 := by
    simp [Call.Fits]
  obtain ⟨A, hA, -, hposDef, hlearns⟩ := inverseHessian_posDef ⟨0, []⟩ _ hcalls
  obtain ⟨d, B, hnext, h⟩ := hlearns ⟨[1, 1], [2, 6], 40⟩ ⟨[2, 2], [4, 12], 160⟩ [-1, -1]
    ⟨rfl, rfl, rfl, rfl⟩
  have hstep : Vec.sub [2, 2] [1, 1] = ([1, 1] : Vec ℝ) := by norm_num [Vec.sub]
  have hchange : Vec.sub [4, 12] [2, 6] = ([2, 6] : Vec ℝ) := by norm_num [Vec.sub]
  have hsecant := h.secant
  have hdescends := h.descends
  simp only [hstep, hchange] at hsecant hdescends
  refine ⟨A, hA, hposDef, d, B, hnext, h.posDef, hsecant ?_, hdescends ?_⟩
  · rw [Curved, Scalar.sqrt_real, Real.sqrt_lt']
    · norm_num [Vec.normSq_eq_dot, Vec.laneDot_eq_dot, curvatureEpsilon]
    · norm_num [Vec.laneDot_eq_dot]
  · simp [Vec.zeros]

end Strategy

end Minima
