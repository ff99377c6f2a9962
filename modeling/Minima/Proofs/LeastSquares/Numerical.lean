import Minima.Proofs.LeastSquares.Patience

/-!
# Numerical ends of the least squares solver

A run is cut off where a value is infinite or undefined.  Where that is found before a trial, or
once a trial has been accepted, the target is at the point accepted last and the report has its
objective.  The reduction that is predicted for a step is looked at when the target has moved to
the trial: a run that ends there leaves it at the trial, with the objective of the trial, which
may be of any size.
-/

namespace Minima.Solver

open OrderedScalar

variable {τ α : Type} [Scalar α]

def Position.linearPart (norm : Norm) (here : Position α) : α :=
  Scalar.square
    ((here.attempt norm).2.imageLength norm (here.step norm).step / here.iterate.norm)

def Position.dampedPart (norm : Norm) (here : Position α) : α :=
  Scalar.square
    (Scalar.sqrt (here.step norm).damping * (here.step norm).length / here.iterate.norm)

/-- No reduction can be predicted for the step. -/
def Position.Unpredictable (norm : Norm) (here : Position α) : Prop :=
  Scalar.isFinite (here.linearPart norm) = false ∨ Scalar.isFinite (here.dampedPart norm) = false

variable {t : Target τ α} {valid : τ → Prop} {residuals : Vec α → Option (Vec α)} {norm : Norm}
  {s : Solver α} {a : Account τ α} {here : Position α} {origin it : Iterate α}

/-! ## Stages -/

theorem leads_linearise_numerical (answers : t.Answers valid residuals) {length : α}
    (h : a.Rests t valid it.x length) :
    Leads (s.linearise norm t it) a (fun _ _ => True)
      (fun reason a' => ∀ what, reason = .numerical what →
        what = .jacobian ∧ a'.Rests t valid it.x length) := by
  unfold linearise
  rw [leads_bind]
  refine (leads_jacobian answers h).mono (fun found a' hrests => ?_) (fun _ _ => False.elim)
  cases found with
  | none => rintro _ ⟨⟩
  | some matrix =>
      have hjacobian : ∀ what, Termination.numerical .jacobian = .numerical what →
          what = .jacobian ∧ a'.Rests t valid it.x length := by
        rintro _ ⟨⟩
        exact ⟨rfl, hrests⟩
      simp only [leads_ite, leads_bind, leads_throw]
      refine ⟨fun _ => by rintro _ ⟨⟩, fun _ => ⟨fun _ => hjacobian, fun _ => ?_⟩⟩
      split
      · simp only [leads_ite, leads_bind, leads_throw, leads_pure]
        exact ⟨fun _ => by rintro _ ⟨⟩, fun _ => trivial⟩
      · exact hjacobian

theorem leads_checkTrial_numerical {c : Comparison α} {cosine length radius scale : α} :
    Leads (s.checkTrial c cosine length radius scale) a (fun _ _ => True)
      (fun reason _ => ∀ what, reason ≠ .numerical what) := by
  unfold checkTrial
  simp only [leads_ite, leads_bind, leads_throw, leads_pure, leads_get]
  grind

theorem leads_accept_numerical {cosine : α} {p : Proposal α} :
    Leads (s.accept norm cosine p) a (fun _ a' => a' = a)
      (fun reason a' => ∀ what, reason = .numerical what → what = .parameters ∧ a' = a) := by
  unfold accept
  simp only [leads_ite, leads_bind, leads_throw, leads_pure]
  constructor
  · rintro _ _ ⟨⟩
    exact ⟨rfl, trivial⟩
  · intro _
    refine (leads_checkTrial_patience.and leads_checkTrial_numerical).mono (fun _ _ h => h.1.1) ?_
    exact fun reason _ h what hreason => absurd hreason (h.2 what)

theorem leads_reject_numerical {p : Proposal α} :
    Leads (s.reject t here p) a (fun _ _ => True)
      (fun reason _ => ∀ what, reason ≠ .numerical what) := by
  unfold reject
  simp only [leads_bind, leads_call, leads_modify]
  exact leads_checkTrial_numerical

theorem leads_propose_numerical (answers : t.Answers valid residuals) (h : valid a.target) :
    Leads (propose norm t here) a (fun _ _ => True)
      (fun reason a' => ∀ what, reason = .numerical what →
        (what = .subproblem ∧ a' = a) ∨
          (what = .predictedReduction ∧ here.Unpredictable norm ∧
            ∃ r, residuals (here.trial norm) = some r ∧
              a'.Rests t valid (here.trial norm) (norm.length r))) := by
  rw [propose_eq]
  simp only [leads_ite, leads_bind, leads_throw, leads_pure, leads_call]
  constructor
  · rintro _ _ ⟨⟩
    exact .inl ⟨rfl, trivial⟩
  · intro _
    refine ((leads_evaluate answers (answers.setParams _ h)).and
      (leads_evaluate_stop norm t)).mono ?_ ?_
    · rintro r a' ⟨⟨hr, hrests⟩, -⟩
      refine ⟨fun _ => by rintro _ ⟨⟩, fun _ => ?_⟩
      unfold compare
      simp only [leads_ite, leads_bind, leads_throw, leads_pure]
      refine ⟨?_, fun _ => trivial⟩
      rintro hparts _ ⟨⟩
      refine .inr ⟨rfl, ?_, r, hr, hrests⟩
      simpa [Position.Unpredictable, Position.linearPart, Position.dampedPart] using hparts
    · rintro _ _ ⟨-, rfl⟩ _ ⟨⟩

theorem leads_setUp_numerical (answers : t.Answers valid residuals)
    (h : t.At valid origin.x a.target) (horigin : origin.Measured residuals norm)
    (hfinite : Scalar.isFinite origin.norm = true) :
    Leads (s.setUp norm t) a (fun _ _ => True)
      (fun reason a' => ∀ what, reason = .numerical what →
        what ≠ .predictedReduction ∧ a'.Rests t valid origin.x origin.norm) := by
  unfold setUp start
  simp only [leads_ite, leads_bind, leads_throw, leads_pure, leads_get]
  refine ((leads_evaluate answers h).and (leads_evaluate_stop norm t)).mono ?_ ?_
  · rintro r a' ⟨⟨hr, hrests⟩, -⟩
    obtain rfl : origin.residuals = r := Option.some.inj (horigin.residuals_eq.symm.trans hr)
    rw [h.params, ← horigin.norm_eq]
    rw [← horigin.norm_eq] at hrests
    refine ⟨fun _ => by rintro _ ⟨⟩, fun _ => ⟨fun _ => by rintro _ ⟨⟩,
      fun _ => ⟨fun hinfinite => ?_, fun _ =>
      ⟨fun _ => by rintro _ ⟨⟩, fun _ => ?_⟩⟩⟩⟩
    · rw [hfinite] at hinfinite
      contradiction
    · refine ((leads_linearise answers hrests).and
        (leads_linearise_numerical answers hrests)).mono ?_ ?_
      · rintro lin a'' ⟨hrests', -⟩
        unfold firstTrust
        simp only [leads_ite, leads_bind, leads_throw, leads_pure]
        refine ⟨?_, fun _ => trivial⟩
        rintro _ _ ⟨⟩
        exact ⟨by rintro ⟨⟩, hrests'⟩
      · rintro _ a'' ⟨-, hnumerical⟩ what rfl
        obtain ⟨rfl, hrests'⟩ := hnumerical what rfl
        exact ⟨by rintro ⟨⟩, hrests'⟩
  · rintro _ _ ⟨-, rfl⟩ _ ⟨⟩

/-! ## A pass -/

variable [OrderedScalar α]

theorem leads_pass_numerical (answers : t.Answers valid residuals)
    (h : Stands t valid residuals norm origin here.iterate a) (earlier : List (Vec α)) :
    Leads (s.pass norm t here) a (fun _ _ => True)
      (fun reason a' => ∀ what, reason = .numerical what →
        ∃ (it : Iterate α) (before : List (Vec α)), it.Below residuals norm origin ∧
          here.extend norm t a (here.iterate.x :: earlier) = it.x :: before ∧
          (what ≠ .predictedReduction → a'.Rests t valid it.x it.norm) ∧
          (what = .predictedReduction → it.x :: before = here.iterate.x :: earlier ∧
            here.Unpredictable norm ∧ ∃ r, residuals (here.trial norm) = some r ∧
              a'.Rests t valid (here.trial norm) (norm.length r))) := by
  unfold pass
  rw [leads_bind]
  refine ((leads_propose answers h).and
    (leads_propose_numerical answers h.rests.target.valid)).mono_run ?_ ?_
  · rintro p a' hpropose ⟨⟨hmeasured, hrests, hlt⟩, -⟩
    rw [Position.extend_of_ok hpropose, leads_ite]
    constructor
    · intro haccepted
      have hbelow := h.below.step hmeasured (hlt haccepted)
      rw [if_pos haccepted, leads_bind]
      refine leads_accept_numerical.mono ?_ ?_
      · rintro trust _ rfl
        rw [leads_bind]
        refine (leads_linearise_numerical answers hrests).mono (fun _ _ _ => trivial) ?_
        rintro _ a'' hnumerical what rfl
        obtain ⟨rfl, hrests'⟩ := hnumerical what rfl
        exact ⟨p.point, _, hbelow, rfl, fun _ => hrests', by rintro ⟨⟩⟩
      · rintro _ a'' hnumerical what rfl
        obtain ⟨rfl, rfl⟩ := hnumerical what rfl
        exact ⟨p.point, _, hbelow, rfl, fun _ => hrests, by rintro ⟨⟩⟩
    · intro _
      rw [leads_bind]
      refine leads_reject_numerical.mono (fun _ _ _ => trivial) ?_
      exact fun _ _ hreason what hnumerical => absurd hnumerical (hreason what)
  · rintro _ a' hpropose ⟨-, hnumerical⟩ what rfl
    rw [Position.extend_of_error hpropose]
    refine ⟨here.iterate, earlier, h.below, rfl, ?_⟩
    rcases hnumerical what rfl with ⟨rfl, rfl⟩ | ⟨rfl, hunpredictable, hr⟩
    · exact ⟨fun _ => h.rests, by rintro ⟨⟩⟩
    · exact ⟨fun hother => absurd rfl hother, fun _ => ⟨rfl, hunpredictable, hr⟩⟩

/-! ## The run -/

theorem Ended.numerical (answers : t.Answers valid residuals) {start : τ} {r₀ : Vec α}
    (hstart : valid start) (hr₀ : residuals (t.params start) = some r₀)
    (hfinite : Scalar.isFinite (norm.length r₀) = true) {trail : List (Vec α)} {what : Subject}
    (h : s.Ended norm t start trail (.numerical what) a) :
    ∃ (it : Iterate α) (earlier : List (Vec α)), trail = it.x :: earlier ∧
      it.Below residuals norm (.ofResiduals norm (t.params start) r₀) ∧
      (what ≠ .predictedReduction → a.Rests t valid it.x it.norm) ∧
      (what = .predictedReduction → ∃ here b, s.Trail norm t start trail here b ∧
        here.Unpredictable norm ∧ ∃ r, residuals (here.trial norm) = some r ∧
          a.Rests t valid (here.trial norm) (norm.length r)) := by
  have horigin : Iterate.Measured residuals norm (.ofResiduals norm (t.params start) r₀) :=
    Iterate.measured_ofResiduals hr₀
  cases h with
  | setUp hrun =>
      obtain ⟨hwhat, hrests⟩ :=
        (leads_setUp_numerical answers ⟨hstart, rfl⟩ horigin hfinite).of_error hrun what rfl
      exact ⟨_, [], rfl, ⟨horigin, .inl rfl⟩, fun _ => hrests, fun h => absurd h hwhat⟩
  | @pass trail here _ b _ htrail hrun =>
      have hstands := htrail.reaches.stands answers hstart hr₀
      obtain ⟨earlier, rfl⟩ := htrail.exists_eq_cons
      obtain ⟨it, before, hbelow, hextend, hrests, htrial⟩ :=
        (leads_pass_numerical answers hstands earlier).of_error hrun what rfl
      refine ⟨it, before, hextend, hbelow, hrests, fun hwhat => ?_⟩
      obtain ⟨hsame, hunpredictable, hr⟩ := htrial hwhat
      rw [hextend, hsame]
      exact ⟨here, b, htrail, hunpredictable, hr⟩

/-- For a target whose residuals depend on its parameters alone: where a run ends for a value that
is not finite, the point accepted last has an objective not above that of the start.  The target is
at this point, with its objective reported, unless it was the prediction that could not be made;
then the target is at the trial, and the objective is the one of the trial. -/
theorem minimize_numerical (s : Solver Float) (norm : Norm) {τ : Type} {t : Target τ Float}
    {valid : τ → Prop} {residuals : Vec Float → Option (Vec Float)}
    (answers : t.Answers valid residuals) {start finish : τ} {r₀ : Vec Float} (hstart : valid start)
    (hr₀ : residuals (t.params start) = some r₀)
    (hfinite : Scalar.isFinite (norm.length r₀) = true) {report : Report Float} {what : Subject}
    (hrun : s.minimize norm t start = (report, finish))
    (hend : report.termination = .numerical what) :
    ∃ x earlier, s.Ended norm t start (x :: earlier) (.numerical what)
        ⟨finish, report.evaluations, report.objective⟩ ∧
      (∃ r, residuals x = some r ∧ halfSquare (norm.length r) ≤ halfSquare (norm.length r₀) ∧
        (what ≠ .predictedReduction →
          t.params finish = x ∧ report.objective = some (halfSquare (norm.length r)))) ∧
      (what = .predictedReduction → ∃ here a r, s.Trail norm t start (x :: earlier) here a ∧
        here.Unpredictable norm ∧ residuals (here.trial norm) = some r ∧
        t.params finish = here.trial norm ∧
        report.objective = some (halfSquare (norm.length r))) := by
  obtain ⟨trail, reason, a, hended, hreport, -⟩ := exists_ended s norm t start
  obtain ⟨rfl, rfl⟩ := Prod.mk.inj (hreport.symm.trans hrun)
  obtain rfl : reason = .numerical what := hend
  obtain ⟨it, earlier, rfl, hbelow, hrests, htrial⟩ :=
    hended.numerical answers hstart hr₀ hfinite
  have hle := hbelow.le (le_refl_of_isFinite hfinite)
  have hnonneg := hbelow.measured.length_nonneg (le_refl_left hle)
  refine ⟨it.x, earlier, hended, ⟨it.residuals, hbelow.measured.residuals_eq, ?_⟩, ?_⟩
  · rw [← hbelow.measured.norm_eq]
    refine ⟨halfSquare_le hnonneg hle, fun hwhat => ?_⟩
    exact ⟨(hrests hwhat).target.params, (hrests hwhat).objective⟩
  · intro hwhat
    obtain ⟨here, b, htrail, hunpredictable, r, hr, hmoved⟩ := htrial hwhat
    exact ⟨here, b, r, htrail, hunpredictable, hr, hmoved.target.params, hmoved.objective⟩

def edge : Target (Vec Float) Float :=
  Target.ofFunctions some fun x => some ⟨1, [[if x.all (2 ≤ ·) then 2 else Scalar.infinity]]⟩

theorem minimize_numerical_edge :
    edge.Answers (fun _ => True) some ∧
      (new.minimize .plain edge [3]).1.termination = .numerical .jacobian ∧
      (new.minimize .plain edge [3]).1.evaluations = 2 ∧
      ∃ r, some (edge.params (new.minimize .plain edge [3]).2) = some r ∧
        (new.minimize .plain edge [3]).1.objective = some (halfSquare (Norm.plain.length r)) ∧
        halfSquare (Norm.plain.length r) ≤ halfSquare (Norm.plain.length [(3 : Float)]) := by
  have hanswers : edge.Answers (fun _ => True) some := Target.ofFunctions_answers _ _
  have hend : (new.minimize .plain edge [3]).1.termination = .numerical .jacobian ∧
      (new.minimize .plain edge [3]).1.evaluations = 2 := by
    decide +kernel
  have hstart : some (edge.params [3]) = some [3] := rfl
  obtain ⟨x, earlier, -, ⟨r, hr, hle, hrests⟩, -⟩ :=
    minimize_numerical new .plain hanswers trivial hstart (by decide +kernel)
      Prod.mk.eta.symm hend.1
  obtain ⟨hparams, hobjective⟩ := hrests (by rintro ⟨⟩)
  refine ⟨hanswers, hend.1, hend.2, r, ?_, hobjective, hle⟩
  rw [hparams]
  exact hr

def steepResiduals : Vec Float → Option (Vec Float)
  | [x, y] => some [1e100 * (x - 7 * y) + 1e-80, 1e-80 * y]
  | _ => none

def steep : Target (Vec Float) Float :=
  Target.ofFunctions steepResiduals fun _ => some ⟨2, [[1e100, 0], [-7e100, 1e-80]]⟩

/-- Rounding in the first prediction exceeds the range of doubles.  Nothing has been accepted, but
the target is no longer at the start, and the objective is far above that of the start. -/
theorem minimize_leaves_start :
    steep.Answers (fun _ => True) steepResiduals ∧
      ∃ r₀, steepResiduals [21, 3] = some r₀ ∧
        Scalar.isFinite (Norm.plain.length r₀) = true ∧
        ∃ report finish v, new.minimize .plain steep [21, 3] = (report, finish) ∧
          report.termination = .numerical .predictedReduction ∧ report.evaluations = 2 ∧
          (finish == [21, 3]) = false ∧ report.objective = some v ∧
          halfSquare (Norm.plain.length r₀) < v := by
  refine ⟨Target.ofFunctions_answers _ _, _, rfl, by decide +kernel, _, _,
    (new.minimize .plain steep [21, 3]).1.objective.getD 0, Prod.mk.eta.symm, ?_⟩
  decide +kernel

end Minima.Solver
