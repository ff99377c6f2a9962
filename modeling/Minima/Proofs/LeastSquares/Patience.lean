import Minima.Double
import Minima.Proofs.LeastSquares.Trail

/-!
# Patience of the least squares solver

Neither loop of the solver counts its passes.  Every pass asks for residuals once, and a pass is
left only while the evaluations are fewer than the patience allows, so that a run ends by itself.
It may exceed the patience by the evaluations of one Jacobian.
-/

namespace Minima.Solver

variable {τ α : Type} {n : Nat}

def jacobianCost (s : Solver α) (n : Nat) : Nat := if s.epsfcn.isSome then n else 0

def evaluationBound (s : Solver α) (n : Nat) : Nat := max s.patience 2 + s.jacobianCost n

theorem jacobianCost_mono (s : Solver α) {m : Nat} (h : m ≤ n) :
    s.jacobianCost m ≤ s.jacobianCost n := by
  unfold jacobianCost
  split
  · exact h
  · exact le_rfl

/-! ## Stages -/

variable [Scalar α] {s : Solver α} {norm : Norm} {t : Target τ α} {start : τ} {here : Position α}
  {a : Account τ α} {trail : List (Vec α)}

theorem leads_evaluate_evaluations (t : Target τ α) :
    Leads (evaluate norm t) a (fun _ a' => a'.evaluations = a.evaluations + 1)
      (fun _ a' => a'.evaluations = a.evaluations + 1) := by
  unfold evaluate
  simp only [leads_bind, leads_modify, leads_call]
  split
  · rfl
  · rfl

theorem leads_jacobian_evaluations (t : Target τ α) (it : Iterate α) :
    Leads (s.jacobian t it) a
      (fun _ a' => a'.evaluations = a.evaluations + s.jacobianCost it.x.length)
      (fun _ _ => False) := by
  unfold jacobian jacobianCost
  cases s.epsfcn with
  | none => rfl
  | some epsfcn => rfl

theorem leads_linearise_evaluations (t : Target τ α) (it : Iterate α) :
    Leads (s.linearise norm t it) a
      (fun _ a' => a'.evaluations = a.evaluations + s.jacobianCost it.x.length)
      (fun _ a' => a'.evaluations = a.evaluations + s.jacobianCost it.x.length) := by
  unfold linearise
  rw [leads_bind]
  refine (leads_jacobian_evaluations t it).mono (fun found a' ha' => ?_) (fun _ _ => False.elim)
  cases found with
  | none => exact ha'
  | some matrix =>
      simp only [leads_ite, leads_bind, leads_throw]
      refine ⟨fun _ => ha', fun _ => ⟨fun _ => ha', fun _ => ?_⟩⟩
      split
      · simp only [leads_ite, leads_bind, leads_throw, leads_pure]
        exact ⟨fun _ => ha', fun _ => ha'⟩
      · exact ha'

theorem leads_checkTrial_patience {c : Comparison α} {cosine length radius scale : α} :
    Leads (s.checkTrial c cosine length radius scale) a
      (fun _ a' => a' = a ∧ a.evaluations < s.patience) (fun _ a' => a' = a) := by
  unfold checkTrial
  simp only [leads_ite, leads_bind, leads_throw, leads_pure, leads_get]
  grind

theorem leads_accept_patience {cosine : α} {p : Proposal α} :
    Leads (s.accept norm cosine p) a (fun _ a' => a' = a ∧ a.evaluations < s.patience)
      (fun _ a' => a' = a) := by
  unfold accept
  simp only [leads_ite, leads_bind, leads_throw, leads_pure]
  exact ⟨fun _ => trivial, fun _ => leads_checkTrial_patience⟩

theorem leads_reject_patience {p : Proposal α} :
    Leads (s.reject t here p) a
      (fun _ a' => a'.evaluations = a.evaluations ∧ a.evaluations < s.patience)
      (fun _ a' => a'.evaluations = a.evaluations) := by
  unfold reject
  simp only [leads_bind, leads_call, leads_modify]
  refine leads_checkTrial_patience.mono ?_ ?_
  · rintro _ _ ⟨rfl, hpatience⟩
    exact ⟨rfl, hpatience⟩
  · rintro _ _ rfl
    rfl

theorem leads_propose_evaluations (t : Target τ α) (here : Position α) :
    Leads (propose norm t here) a
      (fun p a' => a'.evaluations = a.evaluations + 1 ∧ p.point.x = here.trial norm)
      (fun _ a' => a'.evaluations ≤ a.evaluations + 1) := by
  rw [propose_eq]
  simp only [leads_ite, leads_bind, leads_throw, leads_pure, leads_call]
  refine ⟨fun _ => Nat.le_succ _, fun _ => ?_⟩
  refine (leads_evaluate_evaluations t).mono (fun r a' ha' => ?_) fun _ a' ha' => ha'.le
  refine ⟨fun _ => ha'.le, fun _ => ?_⟩
  unfold compare
  simp only [leads_ite, leads_bind, leads_throw, leads_pure]
  exact ⟨fun _ => ha'.le, fun _ => ⟨ha', trivial⟩⟩

/-! ## A pass -/

/-- What every pass of a run in `n` coordinates finds: its own evaluation is within the bound. -/
structure Affords (s : Solver α) (n : Nat) (here : Position α) (a : Account τ α) : Prop where
  length_le : here.iterate.x.length ≤ n
  evaluations_lt : a.evaluations < s.evaluationBound n

theorem Position.length_trial_le (norm : Norm) (here : Position α) :
    (here.trial norm).length ≤ here.iterate.x.length := by
  rw [Position.trial, Vec.sub, List.length_zipWith]
  exact Nat.min_le_left _ _

theorem leads_pass_affords (h : s.Affords n here a) :
    Leads (s.pass norm t here) a
      (fun next a' => s.Affords n next a' ∧ a.evaluations < a'.evaluations ∧
        a.evaluations + 1 < s.patience)
      (fun _ a' => a'.evaluations ≤ s.evaluationBound n) := by
  have hbound : a.evaluations + 1 ≤ s.evaluationBound n := h.evaluations_lt
  -- What a pass spends beside its own evaluation fits into the bound while patience is left.
  have hleft : ∀ k ≤ s.jacobianCost n, a.evaluations + 1 < s.patience →
      a.evaluations + 1 + k < s.evaluationBound n := by
    intro k hk hpatience
    have hmax := Nat.le_max_left s.patience 2
    unfold evaluationBound
    omega
  unfold pass
  rw [leads_bind]
  refine (leads_propose_evaluations t here).mono ?_ fun _ a' ha' => ha'.trans hbound
  rintro p a' ⟨ha', hpoint⟩
  rw [leads_ite]
  constructor
  · intro _
    rw [leads_bind]
    refine leads_accept_patience.mono ?_ (by rintro _ _ rfl; exact ha'.le.trans hbound)
    rintro trust _ ⟨rfl, hpatience⟩
    rw [ha'] at hpatience
    have hlength : p.point.x.length ≤ n := by
      rw [hpoint]
      exact (here.length_trial_le norm).trans h.length_le
    have hspent := hleft _ (s.jacobianCost_mono hlength) hpatience
    rw [leads_bind]
    refine (leads_linearise_evaluations t p.point).mono (fun lin a'' ha'' => ?_) ?_
    · rw [ha'] at ha''
      exact ⟨⟨hlength, ha''.trans_lt hspent⟩, by omega, hpatience⟩
    · intro _ a'' ha''
      rw [ha'', ha']
      exact hspent.le
  · intro _
    rw [leads_bind]
    refine leads_reject_patience.mono ?_ fun _ a'' ha'' => (ha''.trans ha').le.trans hbound
    rintro _ a'' ⟨ha'', hpatience⟩
    rw [ha'] at ha'' hpatience
    have hspent := hleft 0 (Nat.zero_le _) hpatience
    exact ⟨⟨h.length_le, ha''.trans_lt hspent⟩, by omega, hpatience⟩

/-! ## The run -/

theorem leads_setUp_affords (s : Solver α) (norm : Norm) (t : Target τ α) (start : τ) :
    Leads (s.setUp norm t) ⟨start, 0, none⟩
      (fun here a => s.Affords (t.params start).length here a)
      (fun _ a => a.evaluations ≤ s.evaluationBound (t.params start).length) := by
  have hfirst : 1 ≤ s.evaluationBound (t.params start).length := by
    have hmax := Nat.le_max_right s.patience 2
    unfold evaluationBound
    omega
  have hlinear : 1 + s.jacobianCost (t.params start).length <
      s.evaluationBound (t.params start).length := by
    have hmax := Nat.le_max_right s.patience 2
    unfold evaluationBound
    omega
  unfold setUp Solver.start
  simp only [leads_ite, leads_bind, leads_throw, leads_pure, leads_get]
  refine (leads_evaluate_evaluations t).mono (fun r a ha => ?_) fun _ a ha => ha.le.trans hfirst
  replace ha : a.evaluations = 1 := ha
  have hstop : a.evaluations ≤ s.evaluationBound (t.params start).length := ha.le.trans hfirst
  refine ⟨fun _ => hstop, fun _ => ⟨fun _ => hstop, fun _ => ⟨fun _ => hstop, fun _ =>
    ⟨fun _ => hstop, fun _ => ?_⟩⟩⟩⟩
  refine (leads_linearise_evaluations t _).mono (fun lin a' ha' => ?_) ?_
  · rw [ha] at ha'
    unfold firstTrust
    simp only [leads_ite, leads_bind, leads_throw, leads_pure]
    exact ⟨fun _ => ha'.le.trans hlinear.le, fun _ => ⟨le_rfl, ha'.trans_lt hlinear⟩⟩
  · intro _ a' ha'
    rw [ha', ha]
    exact hlinear.le

theorem leads_passes_ended (more : Nat) (htrail : s.Trail norm t start trail here a)
    (h : s.Affords n here a) (hmore : 0 < more) (hpatience : s.patience ≤ more + a.evaluations) :
    Leads (s.passes norm t more here) a (fun _ _ => False)
      (fun reason a' => (∃ trail', s.Ended norm t start trail' reason a') ∧
        a'.evaluations ≤ s.evaluationBound n) := by
  induction more generalizing here a trail with
  | zero => exact absurd hmore (Nat.lt_irrefl 0)
  | succ more ih =>
      unfold passes
      rw [leads_bind]
      refine (leads_pass_affords h).mono_run ?_ fun reason a' hrun ha' =>
        ⟨⟨_, .pass htrail hrun⟩, ha'⟩
      rintro next a' hrun ⟨hnext, hlt, hleft⟩
      exact ih (.pass htrail hrun) hnext (by omega) (by omega)

theorem exists_ended (s : Solver α) (norm : Norm) (t : Target τ α) (start : τ) :
    ∃ trail reason a, s.Ended norm t start trail reason a ∧
      s.minimize norm t start = (⟨reason, a.evaluations, a.objective⟩, a.target) ∧
      a.evaluations ≤ s.evaluationBound (t.params start).length := by
  have hleads : Leads (s.run norm t) ⟨start, 0, none⟩ (fun _ _ => False)
      (fun reason a => (∃ trail, s.Ended norm t start trail reason a) ∧
        a.evaluations ≤ s.evaluationBound (t.params start).length) := by
    unfold run
    rw [leads_bind]
    refine (leads_setUp_affords s norm t start).mono_run (fun here a hrun h => ?_)
      fun reason a hrun ha => ⟨⟨_, .setUp hrun⟩, ha⟩
    exact leads_passes_ended _ (.setUp hrun) h s.patience_pos (Nat.le_add_right _ _)
  unfold Leads at hleads
  unfold minimize
  rcases hrun : s.run norm t ⟨start, 0, none⟩ with ⟨result, a⟩
  rw [hrun] at hleads
  cases result with
  | ok reason => exact hleads.elim
  | error reason =>
      obtain ⟨⟨trail, hended⟩, hle⟩ := hleads
      exact ⟨trail, reason, a, hended, rfl, hle⟩

/-- Every run ends by itself.  It counts at most as many evaluations as the patience allows, and
at least two, with forward differences those of one more Jacobian. -/
theorem minimize_ends (s : Solver α) (norm : Norm) (t : Target τ α) (start : τ) :
    ∃ trail reason a, s.Ended norm t start trail reason a ∧
      s.minimize norm t start = (⟨reason, a.evaluations, a.objective⟩, a.target) ∧
      (s.epsfcn = none → a.evaluations ≤ max s.patience 2) ∧
      ∀ epsfcn, s.epsfcn = some epsfcn →
        a.evaluations ≤ max s.patience 2 + (t.params start).length := by
  obtain ⟨trail, reason, a, hended, hreport, hle⟩ := exists_ended s norm t start
  refine ⟨trail, reason, a, hended, hreport, fun hnone => ?_, fun epsfcn hsome => ?_⟩
  · simpa [evaluationBound, jacobianCost, hnone] using hle
  · simpa [evaluationBound, jacobianCost, hsome] using hle

def parabola : Target (Vec Float) Float :=
  Target.ofFunctions (fun x => some (x.map fun a => a * a)) fun _ => none

def hasty : Solver Float :=
  { new with epsfcn := some 1e-8, patience := 4, patience_pos := by decide }

/-- The second Jacobian is begun while patience is left, so that the bound is attained. -/
theorem minimize_ends_parabola :
    ∃ trail reason a, hasty.Ended .plain parabola [1] trail reason a ∧
      hasty.minimize .plain parabola [1] = (⟨reason, a.evaluations, a.objective⟩, a.target) ∧
      a.evaluations ≤ max 4 2 + 1 ∧ a.evaluations = 5 := by
  obtain ⟨trail, reason, a, hended, hreport, -, hle⟩ := minimize_ends hasty .plain parabola [1]
  have hevaluations : (hasty.minimize .plain parabola [1]).1.evaluations = 5 := by
    decide +kernel
  rw [hreport] at hevaluations
  exact ⟨trail, reason, a, hended, hreport, hle 1e-8 rfl, hevaluations⟩

end Minima.Solver
