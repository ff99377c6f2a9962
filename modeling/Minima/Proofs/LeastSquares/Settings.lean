import Minima.Objective.Recorded
import Minima.Proofs.LeastSquares.Failures
import Minima.Region.Constraint

/-!
# Settings from the stopping rule

The least squares method takes its tolerance and its patience from the stopping rule.  A rule
allows at least two iterations, so that its patience is never refused.  A tolerance that is below
zero is an invalid argument, and one whose sign bit is set is refused.  The two tests differ where
the bit is set and the comparison does not see it, as for the negative zero: there the tolerance is
refused without having been found invalid.
-/

namespace Minima

variable {σ α : Type}

def Failure.isRefused : Failure α → Bool
  | .refused _ => true
  | .sizeMismatch | .error _ => false

namespace LeastSquaresMethod

/-- No evaluation refuses a setting. -/
def Quiet (P : Problem σ α) : Prop :=
  Requests P (fun _ => True) fun failure _ => failure.isRefused = false

theorem upholds_record {β : Type} (entry : Vec α → Except (Error α) β → Evaluation α)
    (f : Vec α → Except String β) (x : Vec α) :
    Upholds (fun _ => True) (fun failure _ => failure.isRefused = false)
      (Cost.record entry f x) := by
  intro o _
  unfold Leads Cost.record
  cases f x with
  | ok b => trivial
  | error reason => rfl

theorem quiet_of_cost [Scalar α] (c : Cost α) (region : Region α) :
    Quiet ⟨c.objective, region⟩ := by
  have hvalues : ∀ x, Upholds (fun _ => True) (fun failure _ => failure.isRefused = false)
      (c.objective.values x) := by
    intro x
    change Upholds _ _ ((c.values.map (Cost.record .values)).getD _ x)
    cases c.values with
    | none => exact Objective.upholds_singleton (upholds_record .value c.value) x
    | some given => exact upholds_record .values given x
  refine ⟨upholds_record .value c.value, hvalues, fun x => ?_⟩
  change Upholds _ _ ((c.jacobian.map (Cost.record .jacobian)).getD _ x)
  cases c.jacobian with
  | none => exact Objective.upholds_centralJacobian (fun _ _ => rfl) hvalues c.step x
  | some given => exact upholds_record .jacobian given x

/-- The start is feasible, and it has coordinates and at least as many components. -/
structure Admits (P : Problem σ α) (s : Session σ (LeastSquaresMethod α) α) : Prop where
  feasible : P.region.contains s.progress.point = true
  length_ne_zero : s.progress.point.length ≠ 0
  measured : ∃ initial o, P.objective.values s.progress.point s.progress.oracle = (.ok initial, o) ∧
    s.progress.point.length ≤ initial.length

theorem Admits.exists_of_values {P : Problem σ α} {s : Session σ (LeastSquaresMethod α) α}
    (h : Admits P s) {answer : Checked α (Vec α)} {o : σ}
    (hrun : P.objective.values s.progress.point s.progress.oracle = (answer, o)) :
    ∃ initial, answer = .ok initial ∧ s.progress.point.length ≤ initial.length := by
  obtain ⟨initial, o', hvalues, hle⟩ := h.measured
  exact ⟨initial, (Prod.mk.inj (hrun.symm.trans hvalues)).1, hle⟩

variable [Scalar α] {P : Problem σ α} {s : Session σ (LeastSquaresMethod α) α}

def configured (s : Solver α) (c : StoppingRule α) : Solver α :=
  { s with
    ftol := c.functionEpsilon
    patience := c.maxIterations
    patience_pos := c.maxIterations_pos }

theorem configure_eq (s : Solver α) (c : StoppingRule α) :
    configure s c =
      if c.functionEpsilon < 0 then .error (.invalid .negativeTolerance)
      else if Scalar.isNegative c.functionEpsilon then .error (.refused (.solver .ftol))
      else .ok (configured s c) := by
  unfold configure
  by_cases hneg : c.functionEpsilon < 0
  · simp only [if_pos hneg]
    rfl
  · simp only [if_neg hneg, if_neg c.maxIterations_pos.ne']
    unfold Solver.withFtol Solver.unsigned
    split
    · rfl
    · exact dif_pos c.maxIterations_pos

theorem leads_prepare_settings (quiet : Quiet P) :
    Leads (prepare P) s
      (fun prepared _ => Admits P s ∧ configure s.memory.solver s.rule = .ok prepared.1 ∧
        Sound (fun _ => True) none prepared.2)
      (fun e _ => Admits P s ∧ configure s.memory.solver s.rule = .error e ∨
        ¬ Admits P s ∧ e.isRefused = false) := by
  have hpoint : s.progress.reset.point = s.progress.point := rfl
  have horacle : s.progress.reset.oracle = s.progress.oracle := rfl
  have hconfigure : configure s.memory.solver s.rule.reset = configure s.memory.solver s.rule := rfl
  unfold prepare
  simp only [leads_bind, leads_reset, leads_get, leads_ite, leads_throw, leads_work,
    leads_uncounted, leads_attempt, hpoint, horacle, hconfigure]
  constructor
  · intro haway
    refine .inr ⟨fun h => ?_, rfl⟩
    rw [h.feasible] at haway
    contradiction
  · intro hcontains
    refine (quiet.values _ _ trivial).mono_run ?_ ?_
    · rintro initial o hrun -
      refine ⟨fun hlength => .inr ⟨fun h => h.length_ne_zero hlength, rfl⟩, fun hlength =>
        ⟨fun hlt => .inr ⟨fun h => ?_, rfl⟩, fun hle => ?_⟩⟩
      · obtain ⟨_, ⟨⟩, hle⟩ := h.exists_of_values hrun
        exact Nat.not_lt.mpr hle hlt
      · have hadmits : Admits P s :=
          ⟨by simpa using hcontains, hlength, initial, o, hrun, Nat.not_lt.mp hle⟩
        cases configure s.memory.solver s.rule with
        | ok solver => exact ⟨hadmits, rfl, trivial, rfl, by rintro _ ⟨⟩⟩
        | error e => exact .inl ⟨hadmits, rfl⟩
    · rintro e _ hrun hquiet
      refine .inr ⟨fun h => ?_, hquiet⟩
      obtain ⟨_, ⟨⟩, -⟩ := h.exists_of_values hrun

theorem minimize_of_prepare_error {e : Failure α} {s' : Session σ (LeastSquaresMethod α) α}
    (h : prepare P s = (.error e, s')) : (minimize P s).1 = .error e := by
  have hleads : Leads (minimize P) s (fun _ _ => False) (fun e' _ => e' = e) := by
    unfold minimize
    rw [leads_bind]
    exact leads_of_error h rfl
  rcases hrun : minimize P s with ⟨e' | o, s''⟩
  · rw [hleads.of_error hrun]
  · exact (hleads.of_ok hrun).elim

theorem not_isRefused_of_prepare_ok (quiet : Quiet P) {prepared : Solver α × State σ α}
    {s' : Session σ (LeastSquaresMethod α) α} (h : prepare P s = (.ok prepared, s'))
    {e : Failure α} (hrun : (minimize P s).1 = .error e) : e.isRefused = false := by
  have hsound := ((leads_prepare_settings quiet).of_ok h).2.2
  have hleads := leads_minimize_of_prepare quiet (Objective.sized_none _) h hsound
  rcases hanswer : minimize P s with ⟨answer, s''⟩
  rw [hanswer] at hrun
  cases hrun
  rcases hleads.of_error hanswer with hquiet | ⟨rfl, -⟩ | ⟨⟨reason, rfl⟩, -⟩
  · exact hquiet
  · rfl
  · rfl

theorem minimize_of_configure_error (quiet : Quiet P) (hadmits : Admits P s) {e : Failure α}
    (h : configure s.memory.solver s.rule = .error e) : (minimize P s).1 = .error e := by
  rcases hprepare : prepare P s with ⟨e' | ⟨solver, start⟩, s'⟩
  · rcases (leads_prepare_settings quiet).of_error hprepare with ⟨-, he⟩ | ⟨hnot, -⟩
    · cases h.symm.trans he
      exact minimize_of_prepare_error hprepare
    · exact absurd hadmits hnot
  · have hok := ((leads_prepare_settings quiet).of_ok hprepare).2.1
    cases h.symm.trans hok

theorem exists_prepare_of_configure (quiet : Quiet P) (hadmits : Admits P s) {solver : Solver α}
    (h : configure s.memory.solver s.rule = .ok solver) :
    ∃ start s', prepare P s = (.ok (solver, start), s') := by
  rcases hprepare : prepare P s with ⟨e | ⟨solver', start⟩, s'⟩
  · rcases (leads_prepare_settings quiet).of_error hprepare with ⟨-, he⟩ | ⟨hnot, -⟩
    · cases h.symm.trans he
    · exact absurd hadmits hnot
  · obtain ⟨-, hok, -⟩ := (leads_prepare_settings quiet).of_ok hprepare
    cases h.symm.trans hok
    exact ⟨start, s', rfl⟩

theorem minimize_isRefused_iff (quiet : Quiet P) :
    (∃ e, (minimize P s).1 = .error e ∧ e.isRefused = true) ↔
      Admits P s ∧ ∃ e, configure s.memory.solver s.rule = .error e ∧ e.isRefused = true := by
  constructor
  · rintro ⟨e, hrun, he⟩
    rcases hprepare : prepare P s with ⟨e' | prepared, s'⟩
    · cases hrun.symm.trans (minimize_of_prepare_error hprepare)
      rcases (leads_prepare_settings quiet).of_error hprepare with ⟨hadmits, hconfigure⟩ | ⟨-, hnot⟩
      · exact ⟨hadmits, e, hconfigure, he⟩
      · rw [he] at hnot
        contradiction
    · rw [not_isRefused_of_prepare_ok quiet hprepare hrun] at he
      contradiction
  · rintro ⟨hadmits, e, hconfigure, he⟩
    exact ⟨e, minimize_of_configure_error quiet hadmits hconfigure, he⟩

/-- Only the sign bit of a tolerance that is not below zero makes the settings of a rule refused. -/
theorem configure_isRefused_iff (solver : Solver α) (c : StoppingRule α) :
    (∃ e, configure solver c = .error e ∧ e.isRefused = true) ↔
      ¬ c.functionEpsilon < 0 ∧ Scalar.isNegative c.functionEpsilon = true := by
  rw [configure_eq]
  constructor
  · rintro ⟨e, h, he⟩
    split at h
    · cases h
      contradiction
    · rename_i hneg
      split at h
      · exact ⟨hneg, ‹_›⟩
      · contradiction
  · rintro ⟨hneg, hminus⟩
    rw [if_neg hneg, if_pos hminus]
    exact ⟨_, rfl, rfl⟩

/-- In any arithmetic a run refuses a setting if and only if it comes to its settings with a
tolerance that is not below zero and has its sign bit set, like a negative zero or an undefined
value with that bit.  A tolerance below zero is an invalid argument, and with any other the solver
starts. -/
theorem minimize_refuses_iff (P : Problem σ α) (quiet : Quiet P)
    (s : Session σ (LeastSquaresMethod α) α) :
    ((∃ refusal, (minimize P s).1 = .error (.refused refusal)) ↔
      Admits P s ∧ ¬ s.rule.functionEpsilon < 0 ∧
        Scalar.isNegative s.rule.functionEpsilon = true) ∧
    (Admits P s → s.rule.functionEpsilon < 0 →
      (minimize P s).1 = .error (.invalid .negativeTolerance)) ∧
    (Admits P s → ¬ s.rule.functionEpsilon < 0 →
      Scalar.isNegative s.rule.functionEpsilon = false →
      ∃ start s', prepare P s = (.ok (configured s.memory.solver s.rule, start), s')) := by
  refine ⟨?_, fun hadmits hneg => ?_, fun hadmits hneg hplus => ?_⟩
  · rw [← configure_isRefused_iff s.memory.solver, ← minimize_isRefused_iff quiet]
    constructor
    · rintro ⟨refusal, hrun⟩
      exact ⟨_, hrun, rfl⟩
    · rintro ⟨e, hrun, he⟩
      cases e with
      | refused refusal => exact ⟨refusal, hrun⟩
      | sizeMismatch => contradiction
      | error e => contradiction
  · refine minimize_of_configure_error quiet hadmits ?_
    rw [configure_eq, if_pos hneg]
  · refine exists_prepare_of_configure quiet hadmits ?_
    rw [configure_eq, if_neg hneg, if_neg (by simp [hplus])]

/-! ## Doubles -/

def displacement : Problem (List (Evaluation Float)) Float where
  objective := Cost.objective {
    value := Cost.sumOfSquares fun x => .ok (x.map (· - 1))
    values := some fun x => .ok (x.map (· - 1))
    gradient := none
    jacobian := none
    step := Objective.usualStep }
  region := Constraint.none.region

def fromThree (tolerance : Float) :
    Session (List (Evaluation Float)) (LeastSquaresMethod Float) Float where
  progress := .start [] [3]
  rule := ⟨20, 10, 1e-8, tolerance, tolerance, .running, 0, by decide, by decide⟩
  memory := ⟨.new, .plain⟩

theorem displacement_admits (tolerance : Float) : Admits displacement (fromThree tolerance) :=
  ⟨rfl, Nat.one_ne_zero, [3 - 1], _, rfl, Nat.le_refl 1⟩

theorem minimize_refuses_iff_displacement :
    Quiet displacement ∧
      (∃ refusal, (minimize displacement (fromThree (-0.0))).1 = .error (.refused refusal)) ∧
      (minimize displacement (fromThree (-1e-8))).1 = .error (.invalid .negativeTolerance) ∧
      ∃ start s', prepare displacement (fromThree 0) =
        (.ok (configured .new (fromThree 0).rule, start), s') := by
  have hquiet : Quiet displacement := quiet_of_cost _ _
  obtain ⟨hrefuses, -, -⟩ := minimize_refuses_iff displacement hquiet (fromThree (-0.0))
  obtain ⟨-, hinvalid, -⟩ := minimize_refuses_iff displacement hquiet (fromThree (-1e-8))
  obtain ⟨-, -, hstarts⟩ := minimize_refuses_iff displacement hquiet (fromThree 0)
  refine ⟨hquiet, hrefuses.mpr ⟨displacement_admits _, ?_⟩, hinvalid (displacement_admits _) ?_,
    hstarts (displacement_admits _) ?_ ?_⟩
  · decide +kernel
  · decide +kernel
  · decide +kernel
  · decide +kernel

/-- A rule may have a negative zero for the tolerance, which the method takes for a setting that
is out of range, not for an argument that is invalid. -/
theorem minimize_refuses_negativeZero :
    StoppingRule.new 20 none 1e-8 (-0.0) none = .ok (fromThree (-0.0)).rule ∧
      ¬ (fromThree (-0.0)).rule.functionEpsilon < 0 ∧
      (minimize displacement (fromThree (-0.0))).1 = .error (.refused (.solver .ftol)) := by
  have hneg : ¬ (fromThree (-0.0)).rule.functionEpsilon < 0 := by decide +kernel
  have hminus : Scalar.isNegative (fromThree (-0.0)).rule.functionEpsilon = true := by
    decide +kernel
  refine ⟨rfl, hneg, ?_⟩
  refine minimize_of_configure_error (quiet_of_cost _ _) (displacement_admits _) ?_
  rw [configure_eq, if_neg hneg, if_pos hminus]

end LeastSquaresMethod

end Minima
