import Minima.Proofs.Failures
import Minima.Proofs.LeastSquares.Feasible
import Minima.Proofs.LeastSquares.Interrupted

/-!
# Failures of the least squares method

The first request that fails leaves its failure with the target and interrupts the solver, and
the run fails with it.  A run of an objective with a fixed number of components is interrupted by
nothing else.
-/

namespace Minima

variable {σ α : Type}

def Objective.Sized (f : Objective σ α) (size : Option Nat) : Prop :=
  ∀ m ∈ size, ∀ x o r, (f.values x o).1 = .ok r → r.length = m

theorem Objective.sized_none (f : Objective σ α) : f.Sized none := nofun

namespace LeastSquaresMethod

variable {P : Problem σ α} {keep : σ → Prop} {stop : Failure α → σ → Prop} {size : Option Nat}

/-- The requests that the method makes keep a property of the state, and lead to `stop` where
they fail. -/
structure Requests (P : Problem σ α) (keep : σ → Prop) (stop : Failure α → σ → Prop) : Prop where
  value (x : Vec α) : Upholds keep stop (P.objective.value x)
  values (x : Vec α) : Upholds keep stop (P.objective.values x)
  jacobian (x : Vec α) : Upholds keep stop (P.objective.jacobian x)

theorem requests_of_reports (reports : P.objective.Reports keep stop) : Requests P keep stop :=
  ⟨reports.value, reports.values, reports.jacobian⟩

/-! ## The target -/

structure Sound (keep : σ → Prop) (size : Option Nat) (s : State σ α) : Prop where
  kept : keep s.progress.oracle
  failure_eq : s.failure = none
  length_initial : ∀ m ∈ size, s.initial.length = m

def Lost (keep : σ → Prop) (stop : Failure α → σ → Prop) (size : Option Nat) (s : State σ α) :
    Prop :=
  (∃ e, s.failure = some e ∧ stop e s.progress.oracle) ∨
    (size = none ∧ s.failure = none ∧ keep s.progress.oracle)

theorem given_run {β : Type} {w : Work σ α β} {s : State σ α}
    (hw : Upholds (fun p => keep p.oracle) (fun e p => stop e p.oracle) w)
    (hs : Sound keep size s) :
    Given (Sound keep size) (Lost keep stop size) (State.run w s) := by
  have hleads := hw s.progress hs.kept
  unfold State.run
  unfold Leads at hleads
  rcases hrun : w s.progress with ⟨answer, p⟩
  rw [hrun] at hleads
  cases answer with
  | ok b => exact ⟨hleads, hs.failure_eq, hs.length_initial⟩
  | error e => exact .inl ⟨e, by rw [hs.failure_eq]; rfl, hleads⟩

theorem target_interrupts (requests : Requests P keep stop) (hsized : P.objective.Sized size) :
    (target P).Interrupts (Sound keep size) (Lost keep stop size)
      (fun r => ∀ m ∈ size, r.length = m) where
  good_setParams _ h := ⟨h.kept, h.failure_eq, h.length_initial⟩
  missing_setParams _ h := h
  residuals := by
    intro s hs
    change Given _ _ ((if P.region.contains s.params then State.run (P.values s.params)
      else pure (some s.initial) : StateM _ _) s) ∧ ∀ r ∈ ((if P.region.contains s.params then
        State.run (P.values s.params) else pure (some s.initial) : StateM _ _) s).1, _
    split
    · have hvalues : Upholds (fun p => keep p.oracle) (fun e p => stop e p.oracle)
          (P.values s.params) :=
        Upholds.bind (upholds_modify fun _ h => h) fun _ => (requests.values s.params).uncounted
      refine ⟨given_run hvalues hs, fun r hr m hm => ?_⟩
      rw [run_fst] at hr
      change r ∈ (P.objective.values s.params s.progress.oracle).1.toOption at hr
      cases hanswer : (P.objective.values s.params s.progress.oracle).1 with
      | error e =>
          rw [hanswer] at hr
          contradiction
      | ok r' =>
          rw [hanswer] at hr
          cases hr
          exact hsized m hm _ _ r hanswer
    · refine ⟨hs, ?_⟩
      rintro _ ⟨⟩
      exact hs.length_initial
  jacobian hs := given_run (requests.jacobian _).uncounted hs
  mismatch := by
    intro r r' s hr hr' hlength hs
    cases size with
    | none => exact .inr ⟨rfl, hs.failure_eq, hs.kept⟩
    | some m => exact absurd ((hr m rfl).trans (hr' m rfl).symm) hlength

/-! ## The run -/

theorem upholds_adopt (requests : Requests P keep stop) (report : Report α) (x : Vec α) :
    Upholds (fun s : Session σ (LeastSquaresMethod α) α => keep s.progress.oracle)
      (fun e s => stop e s.progress.oracle) (adopt P report x) := by
  have hchecked : Upholds (fun s : Session σ (LeastSquaresMethod α) α => keep s.progress.oracle)
      (fun e s => stop e s.progress.oracle) (do
        let _ ← Run.check (·.checkMaxIterations report.evaluations)
        let value ← Run.work (Problem.uncounted (P.objective.value x))
        Run.work (Problem.settle x value)
        Run.outcome) :=
    Upholds.bind (fun _ h => h) fun _ =>
      (requests.value x).uncounted.work.bind fun _ => fun _ h => h
  exact .ite (Upholds.bind (fun _ h => h) fun _ => hchecked) hchecked

variable [Scalar α]

theorem failsOwn_configure (s : Solver α) (c : StoppingRule α) : FailsOwn (configure s c) := by
  have hftol : FailsOwn (s.withFtol c.functionEpsilon >>= (·.withPatience c.maxIterations)) := by
    refine FailsOwn.bind ?_ fun s => ?_
    · exact (FailsOwn.ite (failsOwn_error rfl) (failsOwn_ok _)).bind fun _ => failsOwn_ok _
    · unfold Solver.withPatience
      split
      · exact failsOwn_ok _
      · exact failsOwn_error rfl
  have hevaluations : FailsOwn (do
      if c.maxIterations = 0 then throw (.invalid .noEvaluations)
      (← s.withFtol c.functionEpsilon).withPatience c.maxIterations : Checked α (Solver α)) :=
    .ite ((failsOwn_error rfl).bind fun _ => hftol) hftol
  exact .ite ((failsOwn_error rfl).bind fun _ => hevaluations) hevaluations

theorem prepare_accounts (reports : P.objective.Reports keep stop)
    (hsized : P.objective.Sized size) {s : Session σ (LeastSquaresMethod α) α}
    (hs : keep s.progress.oracle) :
    Leads (prepare P) s (fun prepared _ => Sound keep size prepared.2)
      (fun e s' => stop e s'.progress.oracle ∨
        (e = .error .infeasibleStart ∧ s'.progress = s.progress.reset)) := by
  unfold prepare
  simp only [leads_bind, leads_reset, leads_get, leads_ite, leads_throw, leads_work,
    leads_uncounted, leads_attempt]
  refine ⟨fun _ => .inr ⟨trivial, trivial⟩, fun _ => ?_⟩
  have hvalues := reports.values s.progress.point s.progress.oracle hs
  refine hvalues.mono_run (fun initial o hrun ho => ?_) fun _ _ _ => .inl
  refine ⟨fun _ => .inl (reports.own rfl ho), fun _ => ?_⟩
  refine ⟨fun _ => .inl (reports.own rfl ho), fun _ => ?_⟩
  cases hconfigure : configure s.memory.solver s.rule.reset with
  | error e => exact .inl (reports.own (failsOwn_configure _ _ e hconfigure) ho)
  | ok solver =>
      exact ⟨ho, rfl, fun m hm => hsized m hm _ _ initial (congrArg Prod.fst hrun)⟩

theorem leads_minimize_of_prepare (requests : Requests P keep stop)
    (hsized : P.objective.Sized size) {s s' : Session σ (LeastSquaresMethod α) α}
    {solver : Solver α} {start : State σ α}
    (hprepare : prepare P s = (.ok (solver, start), s')) (hstart : Sound keep size start) :
    Leads (minimize P) s (fun _ s' => keep s'.progress.oracle)
      (fun e s' => stop e s'.progress.oracle ∨
        (e = .error .userAbort ∧ size = none ∧ keep s'.progress.oracle) ∨
        ((∃ reason, e = .error (.leastSquares reason)) ∧ keep s'.progress.oracle)) := by
  unfold minimize
  rw [leads_bind]
  refine leads_of_ok hprepare ?_
  dsimp only
  rw [leads_bind, leads_get]
  rcases hrun : solver.minimize s'.memory.norm (target P) start with ⟨report, finish⟩
  obtain ⟨a, hends, -, rfl⟩ := Solver.minimize_of_leads
    (Solver.leads_run_interrupts (target_interrupts requests hsized) hstart) hrun
  simp only [leads_bind, leads_modify]
  rcases hends with ⟨hsound, hreason⟩ |
    ⟨⟨e, hfailure, hstop⟩ | ⟨hsize, hfailure, hkept⟩, what, hreason⟩
  · rw [hsound.failure_eq]
    dsimp only
    split
    · rename_i what hreason'
      exact absurd hreason' (hreason what)
    · rw [leads_ite]
      refine ⟨fun _ => .inr (.inr ⟨⟨_, rfl⟩, hsound.kept⟩), fun _ => ?_⟩
      refine (upholds_adopt requests report _ _ ?_).imp_stop fun _ _ => .inl
      exact hsound.kept
  · rw [hfailure]
    exact .inl hstop
  · rw [hfailure, hreason]
    exact .inr (.inl ⟨rfl, hsize, hkept⟩)

theorem minimize_accounts (reports : P.objective.Reports keep stop)
    (hsized : P.objective.Sized size) {s : Session σ (LeastSquaresMethod α) α}
    (hs : keep s.progress.oracle) :
    Accounts keep (fun e o => stop e o ∨ (e = .error .userAbort ∧ size = none ∧ keep o))
      (minimize P) s := by
  have hprepared := prepare_accounts reports hsized hs
  rcases hprepare : prepare P s with ⟨e | ⟨solver, start⟩, s'⟩
  · unfold Accounts minimize
    rw [leads_bind]
    exact leads_of_error hprepare ((hprepared.of_error hprepare).imp .inl id)
  · refine (leads_minimize_of_prepare (requests_of_reports reports) hsized hprepare
      (hprepared.of_ok hprepare)).imp_stop ?_
    rintro e _ (hstop | habort | ⟨⟨reason, rfl⟩, hkept⟩)
    · exact .inl (.inl hstop)
    · exact .inl (.inr habort)
    · exact .inl (.inl (reports.own rfl hkept))

end LeastSquaresMethod

end Minima
