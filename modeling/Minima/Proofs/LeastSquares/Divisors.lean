import Minima.Proofs.LeastSquares.TrustRegion

/-!
# What the search divides by

The search for a damping starts only if the step without a diagonal is too long.  Then no damped
step is zero either, and the triangles that the damped solutions leave behind are regular, so that
in exact arithmetic no quotient of the search has the divisor zero.
-/

namespace Minima

open Matrix

namespace TrustStep

/-! ## Passes -/

section passes

variable {α : Type} [Scalar α]

def EachPass (norm : Norm) (scaling : Vec α) (radius : α)
    (Q : TrustStep α × DampedSystem α → Prop) : (more : Nat) → DampedSystem α → Search α → Prop
  | 0, system, s => Q (attempt norm scaling system s)
  | more + 1, system, s =>
      let made := attempt norm scaling system s
      Q made ∧ (¬ Settles radius s made.1 →
        EachPass norm scaling radius Q more made.2 (next norm scaling radius s made))

theorem EachPass.search {norm : Norm} {scaling : Vec α} {radius : α}
    {Q : TrustStep α × DampedSystem α → Prop} {more : Nat} {system : DampedSystem α} {s : Search α}
    (h : EachPass norm scaling radius Q more system s) :
    Q (search norm scaling radius more system s) := by
  induction more generalizing system s with
  | zero => exact h
  | succ more ih =>
      rw [search_succ]
      split
      · exact h.1
      · rename_i hsettles
        exact ih (h.2 hsettles)

end passes

/-! ## Divisors -/

variable {m n : Nat} {A : Matrix (Fin m) (Fin n) ℝ} {b : Fin m → ℝ} {d p : Fin n → ℝ}
  {radius : ℝ} {s : Search ℝ} {f : Factorization ℝ} {σ : Equiv.Perm (Fin n)}
  {U : Matrix (Fin m) (Fin m) ℝ}

structure Divides (scaling : Vec ℝ) (made : TrustStep ℝ × DampedSystem ℝ) : Prop where
  diagonal_ne_zero : ∀ l ∈ made.2.lower, l.diagonal ≠ 0
  length_pos : 0 < made.1.length
  divisor_pos : 0 < divisor .plain made.2.lowerFactor scaling (Vec.mul made.1.step scaling)
    made.1.length

theorem Damps.length_pos {t : TrustStep ℝ} (h : Damps A b d t p) (hd : ∀ j, 0 < d j)
    (hb : Aᵀ *ᵥ b ≠ 0) : 0 < t.length := by
  rw [h.length_eq]
  refine Vec.sqrt_dotProduct_pos fun hscaled => hb ?_
  have hp : p = 0 := by
    funext j
    exact (mul_eq_zero.mp (congrFun hscaled j)).resolve_left (hd j).ne'
  rw [← h.normal, hp, mulVec_zero]

theorem divides_attempt (h : Factorization.Factors A f σ U) (hnm : n ≤ m) (hd : ∀ j, 0 < d j)
    (hb : Aᵀ *ᵥ b ≠ 0) (hs : 0 ≤ s.damping) (lower : List (Line ℝ)) :
    Divides (List.ofFn d) (attempt .plain (List.ofFn d)
      { DampedSystem.ofFactorization f (List.ofFn b) with lower } s) := by
  obtain ⟨⟨p, hdamps⟩, lines, hregular, hsystem⟩ := attempt_damps h hnm b hd hs lower
  have hlength := hdamps.length_pos hd hb
  refine ⟨?_, hlength, ?_⟩
  · intro l hl
    rw [hsystem] at hl
    obtain ⟨line, hline, rfl⟩ := List.mem_map.mp hl
    exact hregular.diagonal_ne_zero line hline
  · rw [hdamps.length_eq] at hlength
    rw [hsystem, hdamps.step_eq, hdamps.length_eq]
    refine divisor_pos _ h.permutation (fun v hv => ?_) hd hlength
    exact Line.eq_zero_of_solveLower hregular.diagonal_ne_zero hregular.isTriangle
      (hv.trans hregular.length_eq.symm)

theorem eachPass_divides (h : Factorization.Factors A f σ U) (hnm : n ≤ m) (hd : ∀ j, 0 < d j)
    (hb : Aᵀ *ᵥ b ≠ 0) (more : Nat) (lines : List (Line ℝ)) (hdamping : 0 ≤ s.damping)
    (hlower : 0 ≤ s.lower) :
    EachPass .plain (List.ofFn d) radius (Divides (List.ofFn d)) more
      { DampedSystem.ofFactorization f (List.ofFn b) with lower := lines } s := by
  induction more generalizing lines s with
  | zero => exact divides_attempt h hnm hd hb hdamping lines
  | succ more ih =>
      refine ⟨divides_attempt h hnm hd hb hdamping lines, fun _ => ?_⟩
      obtain ⟨-, lines', -, hsystem⟩ := attempt_damps h hnm b hd hdamping lines
      obtain ⟨hlower', hdamping'⟩ := next_nonneg .plain (List.ofFn d) (attempt .plain (List.ofFn d)
        { DampedSystem.ofFactorization f (List.ofFn b) with lower := lines } s) hlower
      rw [hsystem]
      exact ih _ hdamping' hlower'

/-- A step without a diagonal that is too long leaves nothing to be divided by zero: not its own
length, not by the first Newton correction where there is one, and not in any pass. -/
theorem search_divides (A : Matrix (Fin m) (Fin n) ℝ) (hnm : n ≤ m) (b : Fin m → ℝ)
    (hd : ∀ j, 0 < d j) {damping : ℝ} (hradius : 0 < radius) (hdamping : 0 ≤ damping)
    {system : DampedSystem ℝ}
    (hsystem : system = .ofFactorization (.factor .plain true (.ofMatrix A)) (List.ofFn b))
    (hlong : radius * 0.1 < (undamped .plain system (List.ofFn d)).length - radius) :
    0 < (undamped .plain system (List.ofFn d)).length ∧
      (system.upperFactor.isNonSingular = true →
        0 < divisor .plain system.upperFactor (List.ofFn d)
          (Vec.mul (undamped .plain system (List.ofFn d)).step (List.ofFn d))
          (undamped .plain system (List.ofFn d)).length) ∧
      EachPass .plain (List.ofFn d) radius (Divides (List.ofFn d)) 9 system
        (start .plain system (List.ofFn d) radius damping) := by
  subst hsystem
  obtain ⟨σ, U, -, h⟩ := Factorization.exists_factors true A hnm
  have hlower := lowerBound_nonneg _ _ hradius hlong
  have hstart := start_damping_nonneg
    (.ofFactorization (.factor .plain true (.ofMatrix A)) (List.ofFn b)) (List.ofFn d) hradius
    hdamping
  obtain ⟨x, hx, -, hzero⟩ :=
    h.solveUndamped_eq hnm (Factorization.vanishes_factor A hnm) b
  have hlength : 0 < √((d * x) ⬝ᵥ (d * x)) := by
    rw [undamped, hx, length_scaled] at hlong
    dsimp only at hlong
    linarith
  have hb : Aᵀ *ᵥ b ≠ 0 := by
    intro hgradient
    rw [hzero hgradient, mul_zero, dotProduct_zero, Real.sqrt_zero] at hlength
    exact lt_irrefl _ hlength
  refine ⟨?_, fun hnonsingular => ?_, eachPass_divides h hnm hd hb 9 _ hstart hlower⟩
  · rw [undamped, hx, length_scaled]
    exact hlength
  · rw [undamped, hx, length_scaled]
    refine divisor_pos _ h.permutation (fun v hv => ?_) hd hlength
    refine Head.eq_zeros_of_solveTransposed (fun c hc => ?_) (hv.trans ?_)
    · simpa using List.all_eq_true.mp hnonsingular c hc
    · simp [DampedSystem.ofFactorization, h.length_pivots]

end TrustStep

end Minima
