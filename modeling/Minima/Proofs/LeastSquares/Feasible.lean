import Minima.LeastSquares.Method
import Minima.Proofs.LeastSquares.Descent
import Minima.Proofs.Objective
import Minima.Proofs.StoppingRule

/-!
# Feasibility of the least squares method

Outside the region the target answers with the components of the start.  Their
length is that of the start, and an accepted point has shorter components than
any point before it, so no such point is accepted.  The components themselves are
asked for in the region alone.
-/

namespace Minima

open OrderedScalar

variable {σ α : Type}

namespace LeastSquaresMethod

/-! ## Work of the target -/

theorem run_fst {β : Type} (w : Work σ α β) (s : State σ α) :
    (State.run w s).1 = (w s.progress).1.toOption := by
  unfold State.run
  rcases w s.progress with ⟨answer, progress⟩
  cases answer with
  | ok b => rfl
  | error failure => rfl

theorem run_snd {β : Type} (w : Work σ α β) (s : State σ α) :
    (State.run w s).2.progress = (w s.progress).2 ∧ (State.run w s).2.params = s.params ∧
      (State.run w s).2.initial = s.initial := by
  unfold State.run
  rcases w s.progress with ⟨answer, progress⟩
  cases answer with
  | ok b => exact ⟨rfl, rfl, rfl⟩
  | error failure => exact ⟨rfl, rfl, rfl⟩

variable {P : Problem σ α} {value : Vec α → Checked α α}
  {values : Vec α → Checked α (Vec α)} {Q : σ → Prop}

/-! ## The target of a problem -/

def residuals (region : Region α) (values : Vec α → Checked α (Vec α)) (initial x : Vec α) :
    Option (Vec α) :=
  if region.contains x then (values x).toOption else some initial

structure Valid (Q : σ → Prop) (initial : Vec α) (s : State σ α) : Prop where
  initial_eq : s.initial = initial
  spared : Q s.progress.oracle

theorem run_at [Scalar α] {β : Type} {w : Work σ α β} {initial : Vec α} {s : State σ α}
    (hvalid : Valid Q initial s) (hw : Q (w s.progress).2.oracle) :
    (target P).At (Valid Q initial) s.params (State.run w s).2 := by
  obtain ⟨hprogress, hparams, hinitial⟩ := run_snd w s
  refine ⟨⟨hinitial.trans hvalid.initial_eq, ?_⟩, hparams⟩
  rw [hprogress]
  exact hw

theorem target_answers [Scalar α] (answers : P.objective.Answers value values)
    (hspares : P.Spares Q)
    (initial : Vec α) :
    (target P).Answers (Valid Q initial) (residuals P.region values initial) where
  setParams x h := ⟨⟨h.initial_eq, h.spared⟩, rfl⟩
  residuals := by
    rintro x s ⟨hvalid, rfl⟩
    have hrun : (target P).residuals s =
        if P.region.contains s.params then State.run (P.values s.params) s
        else (some s.initial, s) := by
      change (if P.region.contains s.params then State.run (P.values s.params)
        else pure (some s.initial) : StateM _ _) s = _
      split
      · rfl
      · rfl
    change ((target P).residuals s).1 = residuals P.region values initial s.params ∧ _
    rw [hrun, residuals]
    by_cases hfeasible : P.region.contains s.params = true
    · simp only [if_pos hfeasible]
      constructor
      · rw [run_fst]
        exact congrArg Except.toOption (answers.values s.params s.progress.oracle)
      · exact run_at hvalid (hspares.values hfeasible hvalid.spared)
    · simp only [if_neg hfeasible]
      exact ⟨congrArg some hvalid.initial_eq, hvalid, rfl⟩
  jacobian := by
    rintro x s ⟨hvalid, rfl⟩
    exact run_at hvalid (hspares.jacobian s.params hvalid.spared)

/-! ## Accepted points -/

section Ordered

variable [Scalar α] [OrderedScalar α] {norm : Norm} {x₀ initial : Vec α} {it : Solver.Iterate α}

theorem feasible_of_below (hfeasible : P.region.contains x₀ = true)
    (h : it.Below (residuals P.region values initial) norm (.ofResiduals norm x₀ initial)) :
    P.region.contains it.x = true := by
  rcases h.descended with rfl | hlt
  · exact hfeasible
  · by_contra hinfeasible
    have hresiduals := h.measured.residuals_eq
    rw [residuals, if_neg hinfeasible] at hresiduals
    rw [h.measured.norm_eq, ← Option.some.inj hresiduals] at hlt
    exact not_le_of_lt hlt (le_of_lt hlt)

theorem values_of_below (hfeasible : P.region.contains x₀ = true)
    (h : it.Below (residuals P.region values initial) norm (.ofResiduals norm x₀ initial)) :
    values it.x = .ok it.residuals := by
  have hresiduals := h.measured.residuals_eq
  rw [residuals, if_pos (feasible_of_below hfeasible h)] at hresiduals
  cases hvalues : values it.x with
  | ok r => rw [hvalues] at hresiduals; exact congrArg Except.ok (Option.some.inj hresiduals)
  | error failure => rw [hvalues] at hresiduals; contradiction

end Ordered

/-! ## The run -/

structure Prepared (P : Problem σ α) (values : Vec α → Checked α (Vec α)) (Q : σ → Prop)
    (s : Session σ (LeastSquaresMethod α) α) (start : State σ α) : Prop where
  feasible : P.region.contains s.progress.point = true
  values_eq : values s.progress.point = .ok start.initial
  params_eq : start.params = s.progress.point
  spared : Q start.progress.oracle

theorem Prepared.start_feasible {s : Session σ (LeastSquaresMethod α) α} {start : State σ α}
    (h : Prepared P values Q s start) : P.region.contains start.params = true := by
  rw [h.params_eq]
  exact h.feasible

theorem Prepared.residuals_eq {s : Session σ (LeastSquaresMethod α) α} {start : State σ α}
    (h : Prepared P values Q s start) :
    residuals P.region values start.initial ((target P).params start) = some start.initial := by
  change residuals P.region values start.initial start.params = _
  rw [residuals, if_pos h.start_feasible, h.params_eq, h.values_eq]
  rfl

theorem leads_adopt (answers : P.objective.Answers value values) (hspares : P.Spares Q)
    {s : Session σ (LeastSquaresMethod α) α} (hs : Q s.progress.oracle) (report : Report α)
    (x : Vec α) :
    Leads (adopt P report x) s
      (fun _ s' => s'.progress.point = x ∧
        (∃ v, value x = .ok v ∧ s'.progress.value = some v) ∧ Q s'.progress.oracle)
      (fun _ s' => Q s'.progress.oracle) := by
  have hvalue := leads_of_answer (answers.value x s.progress.oracle) (hspares.value x hs)
  unfold adopt Run.mark Run.outcome Problem.settle
  simp only [leads_bind, leads_ite, leads_modify, leads_check, leads_work, leads_uncounted,
    leads_get, leads_pure]
  refine ⟨fun _ => hvalue.mono ?_ (fun _ _ h => h), fun _ => hvalue.mono ?_ (fun _ _ h => h)⟩
  · exact fun v _ h => ⟨trivial, ⟨v, h.1, rfl⟩, h.2⟩
  · exact fun v _ h => ⟨trivial, ⟨v, h.1, rfl⟩, h.2⟩

theorem not_cutsOff_of_hasResult {reason : Termination} (h : hasResult reason = true) :
    reason.cutsOff = false ∧ reason.badInput = false := by
  cases reason with
  | user _ | numerical _ | noParameters | notEnoughResiduals | wrongDimensions _ =>
      simp [hasResult, Termination.code] at h
  | residualsZero | orthogonal | converged _ _ | noImprovementPossible _ | lostPatience =>
      exact ⟨rfl, rfl⟩

variable [Scalar α]

theorem leads_prepare (answers : P.objective.Answers value values) (hspares : P.Spares Q)
    {s : Session σ (LeastSquaresMethod α) α} (hs : Q s.progress.oracle) :
    Leads (prepare P) s
      (fun prepared s' => s'.memory = s.memory ∧ Prepared P values Q s prepared.2)
      (fun _ s' => Q s'.progress.oracle) := by
  unfold prepare Run.reset
  simp only [leads_bind, leads_modify, leads_get, leads_ite, leads_throw, leads_work,
    leads_uncounted]
  refine ⟨fun _ => hs, fun hcontains => ?_⟩
  have hfeasible : P.region.contains s.progress.point = true := by
    simpa [Progress.reset] using hcontains
  refine (leads_of_answer (answers.values s.progress.point s.progress.oracle)
    (hspares.values hfeasible hs)).mono (fun initial o h => ?_) (fun _ _ h => h)
  rcases h with ⟨hinitial, ho⟩
  refine ⟨fun _ => ho, fun _ => ⟨fun _ => ho, fun _ => ?_⟩⟩
  rw [leads_attempt]
  cases configure s.memory.solver s.rule.reset with
  | error failure => exact ho
  | ok solver =>
      refine ⟨rfl, ?_⟩
      exact {
        feasible := hfeasible
        values_eq := hinitial
        params_eq := rfl
        spared := ho
      }

structure Finished (P : Problem σ α) (value : Vec α → Checked α α)
    (values : Vec α → Checked α (Vec α)) (s s' : Session σ (LeastSquaresMethod α) α) : Prop where
  feasible : P.region.contains s'.progress.point = true
  value_eq : ∃ v, value s'.progress.point = .ok v ∧ s'.progress.value = some v
  shorter : ∃ r r₀, values s'.progress.point = .ok r ∧ values s.progress.point = .ok r₀ ∧
    s.memory.norm.length r ≤ s.memory.norm.length r₀

theorem leads_minimize [OrderedScalar α] (answers : P.objective.Answers value values)
    (hspares : P.Spares Q) {s : Session σ (LeastSquaresMethod α) α} (hs : Q s.progress.oracle) :
    Leads (minimize P) s (fun _ s' => Finished P value values s s' ∧ Q s'.progress.oracle)
      (fun _ s' => Q s'.progress.oracle) := by
  unfold minimize
  rw [leads_bind]
  refine (leads_prepare answers hspares hs).mono ?_ (fun _ _ h => h)
  rintro ⟨solver, start⟩ s' ⟨hmemory, hprepared⟩
  rw [leads_bind, leads_get]
  rcases hrun : solver.minimize s'.memory.norm (target P) start with ⟨report, finish⟩
  obtain ⟨hvalid, hsettled⟩ :=
    Solver.minimize_settles (target_answers answers hspares start.initial)
    ⟨rfl, hprepared.spared⟩ hprepared.residuals_eq hrun
  simp only [leads_bind, leads_modify]
  split
  · exact hvalid.spared
  split
  · exact hvalid.spared
  simp only [leads_bind, leads_ite, leads_throw]
  refine ⟨fun _ => hvalid.spared, fun hresult => ?_⟩
  simp only [Bool.not_eq_eq_eq_not, Bool.not_true, Bool.not_eq_false] at hresult
  obtain ⟨hcut, hinput⟩ := not_cutsOff_of_hasResult hresult
  obtain ⟨it, hbelow, hat, -, hdefined⟩ := hsettled hcut
  have hdefined := hdefined.resolve_left (by rw [hinput]; decide)
  have hstart := hprepared.start_feasible
  have hfinish : finish.params = it.x := hat.params
  refine (leads_adopt answers hspares hvalid.spared report finish.params).mono ?_ (fun _ _ h => h)
  rintro _ s'' ⟨hpoint, hvalue, hspared⟩
  rw [hfinish] at hpoint hvalue
  refine ⟨{ feasible := ?_, value_eq := ?_, shorter := ?_ }, hspared⟩
  · rw [hpoint]
    exact feasible_of_below hstart hbelow
  · rw [hpoint]
    exact hvalue
  · have hle := hbelow.le hdefined
    rw [hbelow.measured.norm_eq, hmemory] at hle
    rw [hpoint]
    exact ⟨it.residuals, start.initial, values_of_below hstart hbelow, hprepared.values_eq, hle⟩

def requests (P : Problem σ α) (s : Session σ (LeastSquaresMethod α) α) :
    List (Vec α) :=
  (minimize P.logged { s with progress := s.progress.logged }).2.progress.oracle.2

/-- For a cost that depends on the point alone: components are asked for at feasible points,
accepted points are feasible, and a result is a feasible point with its value where the
components are not longer than at the start.  An infeasible start has no result. -/
theorem minimize_feasible {P : Problem σ Float} {value : Vec Float → Checked Float Float}
    {values : Vec Float → Checked Float (Vec Float)} (answers : P.objective.Answers value values)
    (s : Session σ (LeastSquaresMethod Float) Float) :
    (∀ x ∈ requests P s, P.region.contains x = true) ∧
      (∀ solver start s' here a p a', prepare P s = (.ok (solver, start), s') →
        solver.Reaches s.memory.norm (target P) start here a →
        Solver.propose s.memory.norm (target P) here a = (.ok p, a') → p.accepted = true →
          P.region.contains p.point.x = true) ∧
      ∀ outcome s', minimize P s = (.ok outcome, s') →
        P.region.contains s'.progress.point = true ∧
        (∃ v, value s'.progress.point = .ok v ∧ s'.progress.value = some v) ∧
        ∃ r r₀, values s'.progress.point = .ok r ∧ values s.progress.point = .ok r₀ ∧
          s.memory.norm.length r ≤ s.memory.norm.length r₀ := by
  have hspares : P.Spares (fun _ => True) := ⟨fun _ h => h, fun _ h => h, fun _ h => h⟩
  refine ⟨?_, ?_, ?_⟩
  · have hempty : ∀ x ∈ s.progress.logged.oracle.2, P.region.contains x = true := by
      simp [Progress.logged]
    exact ((leads_minimize (Objective.logged_answers answers) P.logged_spares
      (s := { s with progress := s.progress.logged }) hempty).mono (fun _ _ h => h.2)
      (fun _ _ h => h)).final
  · intro solver start s' here a p a' hprepare hreaches hpropose haccepted
    obtain ⟨-, hprepared⟩ := (leads_prepare answers hspares trivial).of_ok hprepare
    have htarget := target_answers answers hspares start.initial
    have hstands := hreaches.stands htarget ⟨rfl, trivial⟩ hprepared.residuals_eq
    obtain ⟨hmeasured, -, hlt⟩ := (Solver.leads_propose htarget hstands).of_ok hpropose
    exact feasible_of_below hprepared.start_feasible (hstands.below.step hmeasured (hlt haccepted))
  · intro outcome s' hrun
    obtain ⟨hfinished, -⟩ := (leads_minimize answers hspares trivial).of_ok hrun
    exact ⟨hfinished.feasible, hfinished.value_eq, hfinished.shorter⟩

def distance : Cost Float where
  value x := .ok (Vec.dot x x)
  values := some .ok
  gradient := none
  jacobian := some fun _ => .ok ⟨1, [[1]]⟩
  step := Objective.usualStep

def halfLine : Region Float where
  contains x := x.all fun a => decide (0.5 ≤ a)
  upper := .ok
  lower := .ok

def fromOne : Session (List (Evaluation Float)) (LeastSquaresMethod Float) Float where
  progress := .start [] [1]
  rule := ⟨3, 2, 1e-8, 1e-8, 1e-8, .running, 0, Nat.one_lt_two, StoppingRule.two_le_three⟩
  memory := ⟨.new, .plain⟩

theorem minimize_feasible_halfLine :
    (∀ x ∈ requests ⟨distance.objective, halfLine⟩ fromOne, halfLine.contains x = true) ∧
      ∃ outcome s', minimize ⟨distance.objective, halfLine⟩ fromOne = (.ok outcome, s') ∧
        halfLine.contains s'.progress.point = true ∧
        (∃ v, Cost.answer distance.value s'.progress.point = .ok v ∧
          s'.progress.value = some v) ∧
        ∃ r r₀, distance.components s'.progress.point = .ok r ∧
          distance.components fromOne.progress.point = .ok r₀ ∧
          fromOne.memory.norm.length r ≤ fromOne.memory.norm.length r₀ := by
  obtain ⟨hrequests, -, hresult⟩ :=
    minimize_feasible (P := ⟨distance.objective, halfLine⟩) distance.objective_answers fromOne
  refine ⟨hrequests, ?_⟩
  have hok : (match (minimize ⟨distance.objective, halfLine⟩ fromOne).1 with
      | .ok _ => true
      | .error _ => false) = true := by
    decide +kernel
  rcases hrun : minimize ⟨distance.objective, halfLine⟩ fromOne with ⟨result, s'⟩
  rw [hrun] at hok
  cases result with
  | ok outcome => exact ⟨outcome, s', rfl, hresult outcome s' hrun⟩
  | error failure => contradiction

end LeastSquaresMethod

end Minima
