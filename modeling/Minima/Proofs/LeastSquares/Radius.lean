import Minima.Proofs.Exact.Ordered
import Minima.Proofs.LeastSquares.Trail

/-!
# The radius after a trial

The trust region shrinks by a factor that is never below a tenth and, where nothing is rounded,
never above a half: a trial that is rejected leaves a region of at most half the radius and at
least twice the damping.  After a trial that is accepted the region may also be as before, or of
twice the length of the step.
-/

namespace Minima.Solver

/-- The radius at a trial.  The first step bounds it as well. -/
def Position.radius {α : Type} [Scalar α] (norm : Norm) (here : Position α) : α :=
  if here.trust.first then Scalar.min here.trust.radius (here.step norm).length
  else here.trust.radius

def Comparison.suggestion {α : Type} [Scalar α] (c : Comparison α) : α :=
  if !Scalar.isNegative c.actual then 0.5 else 0.5 * c.slope / (c.slope + 0.5 * c.actual)

def Comparison.shrink {α : Type} [Scalar α] (c : Comparison α) (before after : α) : α :=
  if before ≤ after * 0.1 ∨ c.suggestion < 0.1 then 0.1 else c.suggestion

variable {τ : Type} {norm : Norm} {t : Target τ ℝ} {here : Position ℝ}
  {system : DampedSystem ℝ} {step : TrustStep ℝ} {c : Comparison ℝ} {radius before after : ℝ}
  {a : Account τ ℝ}

/-! ## Comparisons -/

theorem lt_of_reduction_pos_real
    (h : 0 < if after * 0.1 < before then 1 - Scalar.square (after / before) else (-1 : ℝ)) :
    after < before := by
  rcases lt_or_ge 0 before with hbefore | hbefore
  · exact lt_of_reduction_pos hbefore rfl h
  · -- Ten times what is not positive is not above it.
    split at h
    · rename_i hsmall
      norm_num at hsmall
      linarith
    · norm_num at h

theorem leads_compare_real :
    Leads (compare norm system step before after) a
      (fun c a' => a' = a ∧ c.slope ≤ 0 ∧ (1e-4 ≤ c.ratio → after < before))
      (fun _ _ => False) := by
  unfold compare
  simp only [leads_ite, leads_bind, leads_throw, leads_pure]
  refine ⟨by rintro ⟨⟩, fun _ => ⟨trivial, ?_, fun hratio => ?_⟩⟩
  · exact neg_nonpos.mpr (add_nonneg (mul_self_nonneg _) (mul_self_nonneg _))
  · refine lt_of_reduction_pos_real (pos_of_ratio ?_ hratio)
    exact add_nonneg (mul_self_nonneg _) (div_nonneg (mul_self_nonneg _) (by norm_num))

/-! ## The factor -/

theorem suggestion_le_half (hslope : c.slope ≤ 0) : c.suggestion ≤ 1 / 2 := by
  unfold Comparison.suggestion
  split
  · norm_num
  · rename_i hactual
    have hactual : c.actual < 0 := by simpa using hactual
    -- The slope may vanish, but a reduction below zero keeps the denominator away from zero.
    have hdenominator : c.slope + 0.5 * c.actual < 0 := by
      norm_num
      linarith
    rw [div_le_iff_of_neg hdenominator]
    norm_num
    linarith

theorem shrink_bounds (hslope : c.slope ≤ 0) (before after : ℝ) :
    1 / 10 ≤ c.shrink before after ∧ c.shrink before after ≤ 1 / 2 := by
  unfold Comparison.shrink
  split
  · norm_num
  · rename_i h
    obtain ⟨-, hle⟩ := not_or.mp h
    norm_num at hle
    exact ⟨by linarith, suggestion_le_half hslope⟩

/-! ## Adaption -/

theorem adapt_of_poor (h : c.ratio ≤ 0.25) :
    adapt c radius step before after =
      (c.shrink before after * min radius (10 * step.length),
        step.damping / c.shrink before after) := by
  have hlength : step.length / 0.1 = 10 * step.length := by
    norm_num
    ring
  rw [← hlength, ← Scalar.min_real, adapt, if_pos h]
  rfl

theorem adapt_of_fair (h : ¬ c.ratio ≤ 0.25) :
    (adapt c radius step before after).1 = 2 * step.length ∨
      (adapt c radius step before after).1 = radius := by
  rw [adapt, if_neg h]
  split
  · left
    norm_num
    ring
  · exact .inr rfl

theorem adapt_radius_bounds (hslope : c.slope ≤ 0) (hradius : 0 < radius)
    (hlength : 0 < step.length) (h : c.ratio ≤ 0.25) (before after : ℝ) :
    min radius (10 * step.length) / 10 ≤ (adapt c radius step before after).1 ∧
      (adapt c radius step before after).1 ≤ min radius (10 * step.length) / 2 := by
  have hpos : 0 < min radius (10 * step.length) := lt_min hradius (by linarith)
  obtain ⟨hlow, hhigh⟩ := shrink_bounds hslope before after
  rw [adapt_of_poor h]
  constructor
  · calc min radius (10 * step.length) / 10 = 1 / 10 * min radius (10 * step.length) := by ring
      _ ≤ _ := mul_le_mul_of_nonneg_right hlow hpos.le
  · calc _ ≤ 1 / 2 * min radius (10 * step.length) := mul_le_mul_of_nonneg_right hhigh hpos.le
      _ = min radius (10 * step.length) / 2 := by ring

theorem adapt_damping_doubles (hslope : c.slope ≤ 0) (hdamping : 0 ≤ step.damping)
    (h : c.ratio ≤ 0.25) : 2 * step.damping ≤ (adapt c radius step before after).2 := by
  obtain ⟨hlow, hhigh⟩ := shrink_bounds hslope before after
  rw [adapt_of_poor h, le_div_iff₀ (by linarith)]
  nlinarith

theorem adapt_of_rejected (hslope : c.slope ≤ 0) (hradius : 0 < radius)
    (hdamping : 0 ≤ step.damping) (hlength : 0 < step.length) (h : ¬ 1e-4 ≤ c.ratio) :
    0 < (adapt c radius step before after).1 ∧
      (adapt c radius step before after).1 ≤ radius / 2 ∧
      min radius (10 * step.length) / 10 ≤ (adapt c radius step before after).1 ∧
      2 * step.damping ≤ (adapt c radius step before after).2 := by
  have hpoor : c.ratio ≤ 0.25 := by
    norm_num at h ⊢
    linarith
  obtain ⟨hlow, hhigh⟩ := adapt_radius_bounds hslope hradius hlength hpoor before after
  have hmin : 0 < min radius (10 * step.length) := lt_min hradius (by linarith)
  have hle : min radius (10 * step.length) ≤ radius := min_le_left _ _
  exact ⟨by linarith, by linarith, hlow, adapt_damping_doubles hslope hdamping hpoor⟩

theorem adapt_radius_cases (hslope : c.slope ≤ 0) (hradius : 0 < radius)
    (hlength : 0 < step.length) :
    (adapt c radius step before after).1 = radius ∨
      (adapt c radius step before after).1 = 2 * step.length ∨
      min radius (10 * step.length) / 10 ≤ (adapt c radius step before after).1 ∧
        (adapt c radius step before after).1 ≤ min radius (10 * step.length) / 2 := by
  by_cases hpoor : c.ratio ≤ 0.25
  · exact .inr (.inr (adapt_radius_bounds hslope hradius hlength hpoor before after))
  · rcases adapt_of_fair hpoor with htwice | hsame
    · exact .inr (.inl htwice)
    · exact .inl hsame

/-! ## A trial -/

theorem leads_propose_real :
    Leads (propose norm t here) a
      (fun p _ => p.point.x = here.trial norm ∧ p.point.norm = norm.length p.point.residuals ∧
        p.comparison.slope ≤ 0 ∧
        p.trust.radius = (adapt p.comparison (here.radius norm) (here.step norm)
          here.iterate.norm p.point.norm).1 ∧
        p.trust.damping = (adapt p.comparison (here.radius norm) (here.step norm)
          here.iterate.norm p.point.norm).2 ∧
        (p.accepted = true → p.point.norm < here.iterate.norm))
      (fun reason _ => reason = .user .residuals ∨ reason = .wrongDimensions .residuals) := by
  rw [propose_eq]
  simp only [leads_ite, leads_bind, leads_throw, leads_pure, leads_call]
  refine ⟨by rintro ⟨⟩, fun _ => ?_⟩
  refine (leads_evaluate_stop norm t).mono (fun residuals _ _ => ?_) (fun _ _ => .inl)
  refine ⟨fun _ => .inr trivial, fun _ => ?_⟩
  refine leads_compare_real.mono ?_ (fun _ _ => False.elim)
  rintro c _ ⟨rfl, hslope, hlt⟩
  exact ⟨trivial, trivial, hslope, rfl, rfl, fun haccepted => hlt (of_decide_eq_true haccepted)⟩

theorem pass_trust {α : Type} [Scalar α] {t : Target τ α} {s : Solver α}
    {here next : Position α} {p : Proposal α} {a a' a'' : Account τ α}
    (hpropose : propose norm t here a = (.ok p, a'))
    (hpass : s.pass norm t here a = (.ok next, a'')) :
    next.trust.radius = p.trust.radius ∧ next.trust.damping = p.trust.damping := by
  have hleads : Leads (s.pass norm t here) a
      (fun next _ => next.trust.radius = p.trust.radius ∧ next.trust.damping = p.trust.damping)
      (fun _ _ => True) := by
    unfold pass accept nextTrust
    rw [leads_bind]
    refine leads_of_ok hpropose ?_
    simp only [leads_ite, leads_bind, leads_pure, leads_throw]
    refine ⟨fun _ => ⟨fun _ => trivial, fun _ => ?_⟩, fun _ => ?_⟩
    · refine (leads_true _ _).mono (fun _ _ _ => ?_) (fun _ _ h => h)
      refine (leads_true _ _).mono (fun lin _ _ => ?_) (fun _ _ h => h)
      split <;> exact ⟨rfl, rfl⟩
    · exact (leads_true _ _).mono (fun _ _ _ => ⟨trivial, trivial⟩) (fun _ _ h => h)
  exact hleads.of_ok hpass

/-- What a trial makes of the radius and the damping in exact arithmetic. -/
theorem propose_adapts (s : Solver ℝ) (norm : Norm) {τ : Type} (t : Target τ ℝ)
    (here : Position ℝ) (a : Account τ ℝ) (hradius : 0 < here.radius norm)
    (hdamping : 0 ≤ (here.step norm).damping) (hlength : 0 < (here.step norm).length) :
    (∃ reason a', propose norm t here a = (.error reason, a') ∧
      (reason = .user .residuals ∨ reason = .wrongDimensions .residuals)) ∨
    ∃ p a', propose norm t here a = (.ok p, a') ∧
      p.point.x = here.trial norm ∧ p.point.norm = norm.length p.point.residuals ∧
      (p.accepted = false →
        0 < p.trust.radius ∧ p.trust.radius ≤ here.radius norm / 2 ∧
          min (here.radius norm) (10 * (here.step norm).length) / 10 ≤ p.trust.radius ∧
          2 * (here.step norm).damping ≤ p.trust.damping) ∧
      (p.accepted = true →
        p.point.norm < here.iterate.norm ∧
          (p.trust.radius = here.radius norm ∨
            p.trust.radius = 2 * (here.step norm).length ∨
            min (here.radius norm) (10 * (here.step norm).length) / 10 ≤ p.trust.radius ∧
              p.trust.radius ≤ min (here.radius norm) (10 * (here.step norm).length) / 2)) ∧
      ∀ next a'', s.pass norm t here a = (.ok next, a'') →
        next.trust.radius = p.trust.radius ∧ next.trust.damping = p.trust.damping := by
  rcases hrun : propose norm t here a with ⟨reason | p, a'⟩
  · exact .inl ⟨reason, a', rfl, leads_propose_real.of_error hrun⟩
  · right
    obtain ⟨hpoint, hnorm, hslope, htrust, htrust', hlt⟩ := leads_propose_real.of_ok hrun
    refine ⟨p, a', rfl, hpoint, hnorm, fun hrejected => ?_,
      fun haccepted => ⟨hlt haccepted, ?_⟩, fun next a'' => pass_trust hrun⟩
    · rw [htrust, htrust']
      exact adapt_of_rejected hslope hradius hdamping hlength (of_decide_eq_false hrejected)
    · rw [htrust]
      exact adapt_radius_cases hslope hradius hlength

noncomputable def unitPosition : Position ℝ :=
  ⟨⟨[1], [1], 1⟩, ⟨[1], 1, 0, 1, false⟩, ⟨⟨[0], [⟨[], 1⟩], [1], [1], []⟩, 1⟩⟩

theorem attempt_unitPosition :
    unitPosition.attempt .plain = (⟨[1], 0, 1⟩, unitPosition.linearisation.system) := by
  have hsolution : unitPosition.linearisation.system.solveUndamped = [1] := by
    simp [unitPosition, DampedSystem.solveUndamped, Head.lines, linesFrom, Line.solveRegular,
      Line.regular, Line.solveUpper, scatter, Vec.zeros, Vec.dot, Vec.mul, Vec.sum]
  have hlength : Norm.length .plain (Vec.mul [1] unitPosition.trust.scaling) = 1 := by
    simp [unitPosition, Norm.length, Vec.norm, Vec.dot, Vec.mul, Vec.sum]
  rw [Position.attempt, trustStep]
  simp only [hsolution, hlength]
  refine if_pos ?_
  norm_num [unitPosition]

theorem step_unitPosition : unitPosition.step .plain = ⟨[1], 0, 1⟩ := by
  rw [Position.step, attempt_unitPosition]

theorem leads_propose_unitPosition (residuals : Vec ℝ → Option (Vec ℝ))
    (jacobian : Vec ℝ → Option (DenseMatrix ℝ)) (a : Account (Vec ℝ) ℝ) {r : ℝ}
    (hr : residuals [0] = some [r]) :
    Leads (propose .plain (.ofFunctions residuals jacobian) unitPosition) a
      (fun p _ => p.comparison.ratio = if |r| * 0.1 < 1 then 1 - |r| * |r| else -1)
      (fun _ _ => False) := by
  have htrial : unitPosition.trial .plain = [0] := by
    rw [Position.trial, step_unitPosition]
    simp [unitPosition, Vec.sub]
  have himage : unitPosition.linearisation.system.imageLength .plain [1] = 1 := by
    simp [unitPosition, DampedSystem.imageLength, DampedSystem.imageLength.go, Head.lines,
      linesFrom, gather, Norm.length, Vec.norm, Vec.dot, Vec.mul, Vec.sum]
  have hlength : Norm.length .plain [r] = |r| := by
    simp [Norm.length, Vec.norm, Vec.dot, Vec.mul, Vec.sum, Real.sqrt_mul_self_eq_abs]
  have hanswer (x y : Vec ℝ) :
      (Target.ofFunctions residuals jacobian).residuals
        ((Target.ofFunctions residuals jacobian).setParams x y).2 = (residuals x, x) := rfl
  rw [propose_eq, attempt_unitPosition, step_unitPosition, htrial]
  unfold evaluate compare
  simp only [leads_ite, leads_bind, leads_throw, leads_pure, leads_call, leads_modify, hanswer, hr,
    himage, hlength]
  refine ⟨by rintro ⟨⟩, fun _ => ⟨fun h => absurd rfl h, fun _ => ⟨by rintro ⟨⟩, fun _ => ?_⟩⟩⟩
  simp [unitPosition, Scalar.square]

/-- The whole step is tried.  Residuals that stay as they are reject it and halve the radius,
residuals that vanish with the parameter accept it. -/
theorem propose_adapts_unit :
    0 < unitPosition.radius .plain ∧ 0 ≤ (unitPosition.step .plain).damping ∧
      0 < (unitPosition.step .plain).length ∧
      (∃ p a', propose .plain (Target.ofFunctions (fun _ => some [1]) fun _ => none) unitPosition
          ⟨[1], 1, none⟩ = (.ok p, a') ∧ p.accepted = false ∧
        0 < p.trust.radius ∧ p.trust.radius ≤ 1 / 2) ∧
      ∃ p a', propose .plain (Target.ofFunctions some fun _ => none) unitPosition
          ⟨[1], 1, none⟩ = (.ok p, a') ∧ p.accepted = true ∧ p.point.norm < 1 := by
  have hradius : unitPosition.radius .plain = 1 := rfl
  have hpositive : 0 < unitPosition.radius .plain := by
    rw [hradius]
    norm_num
  have hundamped : 0 ≤ (unitPosition.step .plain).damping := by rw [step_unitPosition]
  have hlength : 0 < (unitPosition.step .plain).length := by
    rw [step_unitPosition]
    norm_num
  refine ⟨hpositive, hundamped, hlength, ?_, ?_⟩
  · have htrial := leads_propose_unitPosition (fun _ => some [1]) (fun _ => none)
      ⟨[1], 1, none⟩ rfl
    rcases propose_adapts new .plain (.ofFunctions (fun _ => some [1]) fun _ => none)
      unitPosition ⟨[1], 1, none⟩ hpositive hundamped hlength with
      ⟨_, _, hrun, -⟩ | ⟨p, a', hrun, -, -, hrejects, -⟩
    · exact (htrial.of_error hrun).elim
    · have hrejected : p.accepted = false := by
        rw [Proposal.accepted, htrial.of_ok hrun]
        norm_num
      obtain ⟨hpos, hle, -⟩ := hrejects hrejected
      rw [hradius] at hle
      exact ⟨p, a', hrun, hrejected, hpos, by linarith⟩
  · have htrial := leads_propose_unitPosition some (fun _ => none) ⟨[1], 1, none⟩ rfl
    rcases propose_adapts new .plain (.ofFunctions some fun _ => none) unitPosition
      ⟨[1], 1, none⟩ hpositive hundamped hlength with
      ⟨_, _, hrun, -⟩ | ⟨p, a', hrun, -, -, -, haccepts, -⟩
    · exact (htrial.of_error hrun).elim
    · have haccepted : p.accepted = true := by
        rw [Proposal.accepted, htrial.of_ok hrun]
        norm_num
      exact ⟨p, a', hrun, haccepted, (haccepts haccepted).1⟩

end Minima.Solver
