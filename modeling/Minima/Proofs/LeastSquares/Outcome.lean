import Minima.LeastSquares.Method
import Minima.Proofs.StoppingRule
import Minima.Proofs.Upholds

/-!
# Outcomes of the least squares method

The solver knows nothing of the rule.  Its report is turned into an outcome once it has stopped,
and the check of the budget comes last.
-/

namespace Minima.LeastSquaresMethod

variable {σ α : Type} {P : Problem σ α} {report : Report α}
  {s : Session σ (LeastSquaresMethod α) α}

def outcomeAfter (budget : Nat) (report : Report α) : Outcome :=
  if report.evaluations < budget then
    if report.termination.code = 6 then .running else .stationaryValue
  else .maxIterations

theorem code_of_outcomeAfter_eq_running {budget : Nat} (h : outcomeAfter budget report = .running) :
    report.termination.code = 6 ∧ report.evaluations < budget := by
  unfold outcomeAfter at h
  split at h
  · rename_i hlt
    split at h
    · rename_i hcode
      exact ⟨hcode, hlt⟩
    · contradiction
  · contradiction

theorem leads_adopt_outcome (report : Report α) (x : Vec α) (hrunning : s.rule.outcome = .running) :
    Leads (adopt P report x) s
      (fun o s' => o = s'.rule.outcome ∧ o = outcomeAfter s.rule.maxIterations report)
      (fun _ _ => True) := by
  -- What follows the mark, which both reports come to.
  have hrest (c : StoppingRule α) (hbudget : c.maxIterations = s.rule.maxIterations)
      (houtcome : c.outcome = if report.termination.code = 6 then .running else .stationaryValue) :
      Leads (do
        let _ ← Run.check (·.checkMaxIterations report.evaluations)
        let value ← Run.work (Problem.uncounted (P.objective.value x))
        Run.work (Problem.settle x value)
        Run.outcome) { s with rule := c }
        (fun o s' => o = s'.rule.outcome ∧ o = outcomeAfter s.rule.maxIterations report)
        (fun _ _ => True) := by
    rw [leads_bind, leads_check, leads_bind]
    refine (upholds_work_rule _ _ _ rfl).mono (fun value s' h' => ?_) fun _ _ _ => trivial
    rw [leads_bind, leads_settle, leads_outcome]
    refine ⟨rfl, ?_⟩
    dsimp only
    rw [h', StoppingRule.outcome_checkMaxIterations, hbudget, houtcome]
    rfl
  unfold adopt
  rw [leads_ite]
  constructor
  · intro hmark
    rw [leads_bind, leads_mark]
    exact hrest (s.rule.mark .stationaryValue).2 rfl (if_neg hmark).symm
  · intro hmark
    exact hrest s.rule rfl (by rw [hrunning, if_pos (Decidable.not_not.mp hmark)])

variable [Scalar α]

def Ends (P : Problem σ α) (origin : Session σ (LeastSquaresMethod α) α) (report : Report α)
    (o : Outcome) (s' : Session σ (LeastSquaresMethod α) α) : Prop :=
  ∃ solver first s t, prepare P origin = (.ok (solver, first), s) ∧
    solver.minimize s.memory.norm (target P) first = (report, t) ∧
    adopt P report t.params { s with progress := t.progress } = (.ok o, s')

def Concludes (P : Problem σ α) (origin : Session σ (LeastSquaresMethod α) α) (o : Outcome)
    (s' : Session σ (LeastSquaresMethod α) α) : Prop :=
  o = s'.rule.outcome ∧ ∃ report, Ends P origin report o s' ∧
    o = outcomeAfter origin.rule.maxIterations report

theorem leads_prepare_rule (s : Session σ (LeastSquaresMethod α) α) :
    Leads (prepare P) s (fun _ s' => s'.rule = s.rule.reset) (fun _ _ => True) := by
  unfold prepare
  rw [leads_bind, leads_reset, leads_bind, leads_get]
  simp only [leads_bind, leads_ite, leads_throw]
  refine ⟨fun _ => trivial, fun _ => ?_⟩
  refine (upholds_work_rule s.rule.reset _ _ rfl).mono (fun initial s₁ h₁ => ?_)
    fun _ _ _ => trivial
  refine ⟨fun _ => trivial, fun _ => ⟨fun _ => trivial, fun _ => ?_⟩⟩
  rw [leads_get, leads_attempt]
  cases configure s₁.memory.solver s₁.rule with
  | error e => trivial
  | ok solver => exact h₁

theorem leads_minimize_outcome (s : Session σ (LeastSquaresMethod α) α) :
    Leads (minimize P) s (Concludes P s) (fun _ _ => True) := by
  unfold minimize
  rw [leads_bind]
  refine (leads_prepare_rule s).imp_run ?_
  rintro ⟨solver, first⟩ s₁ hprepared hrule
  rw [leads_bind, leads_get]
  rcases hrun : solver.minimize s₁.memory.norm (target P) first with ⟨report, t⟩
  have hadopt (hrunning : s₁.rule.outcome = .running) :=
    leads_adopt_outcome (P := P) (s := { s₁ with progress := t.progress }) report t.params hrunning
  simp only [leads_bind, leads_modify]
  cases t.failure with
  | some failure => trivial
  | none =>
      dsimp only
      split
      · trivial
      rw [leads_ite]
      refine ⟨fun _ => trivial, fun _ => ?_⟩
      refine (hadopt (by rw [hrule]; rfl)).imp_run fun o s' hran ho => ?_
      refine ⟨ho.1, report, ⟨solver, first, s₁, t, hprepared, hrun, hran⟩, ho.2.trans ?_⟩
      rw [hrule]
      rfl

end Minima.LeastSquaresMethod
