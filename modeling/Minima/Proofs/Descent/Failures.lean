import Minima.Proofs.Descent.Accepted
import Minima.Proofs.Failures

/-!
# Failures of the descent methods

Strategies and line searches fail by themselves only where vectors do not fit together or no
step is feasible.  A run stops at its first request that fails.
-/

namespace Minima

variable {σ α : Type} [Scalar α] {P : Problem σ α} {keep : σ → Prop}
  {stop : Failure α → σ → Prop}

/-! ## Strategies -/

theorem Vec.failsOwn_sub? (a b : Vec α) : FailsOwn (Vec.sub? a b) :=
  (failsOwn_requireSame _ _).bind fun _ => failsOwn_ok _

theorem Vec.failsOwn_laneDot? (a b : Vec α) : FailsOwn (Vec.laneDot? a b) :=
  (failsOwn_requireSame _ _).bind fun _ => failsOwn_ok _

namespace Strategy

theorem failsOwn_initialStep (s : Strategy α) (previous : α) (gradient direction : Vec α) :
    FailsOwn (s.initialStep previous gradient direction) := by
  cases s with
  | steepest => exact failsOwn_ok _
  | quasiNewton h => exact failsOwn_ok _
  | conjugate formula curvature =>
      cases curvature with
      | none => exact failsOwn_ok _
      | some curvature =>
          refine .ite ?_ (failsOwn_ok _)
          exact (Vec.failsOwn_laneDot? _ _).bind fun _ => failsOwn_ok _

theorem failsOwn_curvature (step change : Vec α) : FailsOwn (curvature step change) :=
  .ite ((Vec.failsOwn_laneDot? _ _).bind fun _ => failsOwn_ok _) (failsOwn_ok _)

theorem failsOwn_factor (formula : ConjugateFormula) (previous current : Visited α)
    (change : Vec α) : FailsOwn (ConjugateFormula.factor formula previous current change) := by
  cases formula with
  | fletcherReeves => exact failsOwn_ok _
  | polakRibiere => exact (Vec.failsOwn_laneDot? _ _).bind fun _ => failsOwn_ok _

theorem failsOwn_next (s : Strategy α) (previous current : Visited α) (direction : Vec α) :
    FailsOwn (s.next previous current direction) := by
  cases s with
  | steepest => exact failsOwn_ok _
  | conjugate formula curvature =>
      refine (Vec.failsOwn_sub? _ _).bind fun step => (Vec.failsOwn_sub? _ _).bind fun change => ?_
      refine (failsOwn_curvature step change).bind fun seen => .ite (failsOwn_ok _) ?_
      exact (failsOwn_factor formula previous current change).bind fun _ =>
        (Vec.failsOwn_sub? _ _).bind fun _ => failsOwn_ok _
  | quasiNewton h =>
      refine (Vec.failsOwn_sub? _ _).bind fun step => (Vec.failsOwn_sub? _ _).bind fun change => ?_
      exact (failsOwn_requireSame _ _).bind fun _ => failsOwn_ok _

end Strategy

/-! ## Line searches -/

namespace LineSearch

variable {direction : Vec α}

theorem upholds_origin (reports : P.objective.Reports keep stop) (direction : Vec α) :
    Upholds (fun p => keep p.oracle) (fun e p => stop e p.oracle) (origin P direction) := by
  have hslope (value : α) (gradient : Vec α) :
      Upholds (fun p => keep p.oracle) (fun e p => stop e p.oracle)
        (attempt (requireSame gradient.length direction.length) >>= fun _ =>
          pure (value, -Vec.laneDot gradient direction) : Work σ α (α × α)) := by
    refine Upholds.bind (upholds_attempt fun e p he hp => ?_) fun _ => upholds_pure _
    exact reports.own (failsOwn_requireSame _ _ e he) hp
  refine upholds_get.bind fun p => ?_
  cases hvalue : p.value with
  | some value =>
      exact (reports.work_gradient _).bind fun gradient => hslope value gradient
  | none => exact (reports.work_valueAndGradient _).bind fun vg => hslope vg.1 vg.2

theorem upholds_trial (reports : P.objective.Reports keep stop) (direction : Vec α) (step : α) :
    Upholds (fun p => keep p.oracle) (fun e p => stop e p.oracle) (trial P direction step) := by
  refine upholds_get.bind fun p => ?_
  refine Upholds.bind (upholds_attempt fun e p he hp => ?_) fun taken => ?_
  · exact reports.own (failsOwn_move _ _ _ _ e he) hp
  · exact (reports.work_value _).bind fun _ => upholds_pure _

theorem upholds_finish (reports : P.objective.Reports keep stop) (slope : α) (t : Trial α)
    (succeeded : Bool) :
    Upholds (fun p => keep p.oracle) (fun e p => stop e p.oracle) (finish P slope t succeeded) :=
  (reports.work_gradient _).bind fun _ => upholds_pure _

theorem upholds_backtrack (b : Backtracking α) (reports : P.objective.Reports keep stop)
    (direction : Vec α) (value slope : α) (budget : Nat) (before : Trial α) :
    Upholds (fun p => keep p.oracle) (fun e p => stop e p.oracle)
      (b.backtrack P direction value slope budget before) := by
  induction budget generalizing before with
  | zero =>
      unfold Backtracking.backtrack
      exact (upholds_trial reports _ _).bind fun _ => upholds_pure _
  | succ budget ih =>
      unfold Backtracking.backtrack
      exact (upholds_trial reports _ _).bind fun t => .ite (ih t) (upholds_pure _)

theorem upholds_bracket (b : Bracketing α) (reports : P.objective.Reports keep stop)
    (direction : Vec α) (value slope : α) (budget : Nat) (left right : α) (t : Trial α) :
    Upholds (fun p => keep p.oracle) (fun e p => stop e p.oracle)
      (b.bracket P direction value slope budget left right t) := by
  induction budget generalizing left right t with
  | zero =>
      unfold Bracketing.bracket
      refine .ite (upholds_pure _) ?_
      exact (upholds_trial reports _ _).bind fun _ => upholds_pure _
  | succ budget ih =>
      unfold Bracketing.bracket
      refine .ite (upholds_pure _) ?_
      exact (upholds_trial reports _ _).bind fun t => ih _ _ t

theorem upholds_search (search : LineSearch α) (reports : P.objective.Reports keep stop)
    (budget : Nat) (direction : Vec α) (step : α) :
    Upholds (fun p => keep p.oracle) (fun e p => stop e p.oracle)
      (search.search P budget direction step) := by
  cases search with
  | backtracking b =>
      refine (upholds_origin reports direction).bind fun origin => ?_
      refine (upholds_trial reports direction step).bind fun first => ?_
      refine .ite ?_ ((upholds_pure _).bind fun found => upholds_finish reports _ _ _)
      exact (upholds_backtrack b reports _ _ _ budget first).bind fun found =>
        upholds_finish reports _ _ _
  | bracketing b =>
      refine (upholds_origin reports direction).bind fun origin => ?_
      refine (upholds_trial reports direction step).bind fun first => ?_
      exact (upholds_bracket b reports _ _ _ budget 0 0 first).bind fun found =>
        upholds_finish reports _ _ _

end LineSearch

/-! ## Runs -/

namespace Descent

variable {κ : Type} [Directions κ α]

structure StrategyFailsOwn (κ : Type) [Directions κ α] : Prop where
  initialStep (k : κ) (previous : α) (gradient direction : Vec α) :
    FailsOwn (Directions.initialStep k previous gradient direction)
  next (k : κ) (previous current : Visited α) (direction : Vec α) :
    FailsOwn (Directions.next k previous current direction)

theorem strategy_failsOwn : StrategyFailsOwn (α := α) (Strategy α) :=
  ⟨Strategy.failsOwn_initialStep, Strategy.failsOwn_next⟩

theorem upholds_searchFrom (strategies : StrategyFailsOwn κ)
    (reports : P.objective.Reports keep stop) (stand : Stand α) :
    Upholds (fun s : Session σ (DescentBy κ α) α => keep s.progress.oracle)
      (fun e s => stop e s.progress.oracle) (searchFrom P stand) := by
  refine upholds_get.bind fun s => Upholds.bind (upholds_attempt fun e s he hs => ?_) fun step => ?_
  · exact reports.own (strategies.initialStep _ _ _ _ e he) hs
  · exact (LineSearch.upholds_search _ reports _ _ _).work

theorem upholds_nextDirection (strategies : StrategyFailsOwn κ)
    (reports : P.objective.Reports keep stop) (stand : Stand α) (current : Visited α) :
    Upholds (fun s : Session σ (DescentBy κ α) α => keep s.progress.oracle)
      (fun e s => stop e s.progress.oracle) (nextDirection stand current) := by
  refine upholds_get.bind fun s => Upholds.bind (upholds_attempt fun e s he hs => ?_) fun next => ?_
  · exact reports.own (strategies.next _ _ _ _ e he) hs
  refine Upholds.bind (fun _ h => h) fun _ => Upholds.bind (upholds_attempt fun e s he hs => ?_)
    fun along => ?_
  · exact reports.own (Vec.failsOwn_laneDot? _ _ e he) hs
  · exact .ite (fun _ h => h) (upholds_pure _)

theorem upholds_advance (strategies : StrategyFailsOwn κ)
    (reports : P.objective.Reports keep stop) (i : Nat) (stand : Stand α) :
    Upholds (fun s : Session σ (DescentBy κ α) α => keep s.progress.oracle)
      (fun e s => stop e s.progress.oracle) (advance P i stand) := by
  intro s hs
  apply leads_advance
  refine (upholds_searchFrom strategies reports stand s hs).imp fun found s₁ h₁ =>
    ⟨fun _ _ => h₁, fun _ => ?_⟩
  exact (upholds_nextDirection strategies reports stand _ s₁ h₁).imp fun _ _ h₂ _ _ _ => h₂

theorem upholds_descend (strategies : StrategyFailsOwn κ)
    (reports : P.objective.Reports keep stop) (more i : Nat) (stand : Stand α) :
    Upholds (fun s : Session σ (DescentBy κ α) α => keep s.progress.oracle)
      (fun e s => stop e s.progress.oracle) (descend P more i stand) := by
  induction more generalizing i stand with
  | zero =>
      unfold descend
      refine (upholds_advance strategies reports i stand).bind fun next => ?_
      cases next with
      | none => exact fun _ h => h
      | some next => exact fun _ h => h
  | succ more ih =>
      unfold descend
      refine (upholds_advance strategies reports i stand).bind fun next => ?_
      cases next with
      | none => exact fun _ h => h
      | some next => exact ih _ next

theorem start_accounts (reports : P.objective.Reports keep stop)
    {s : Session σ (DescentBy κ α) α} (hs : keep s.progress.oracle) :
    Accounts keep stop (start P) s := by
  unfold Accounts start
  simp only [leads_bind, leads_reset, leads_get, leads_ite, leads_throw]
  refine ⟨fun _ => .inr ⟨trivial, trivial⟩, fun _ => ?_⟩
  refine Leads.imp_stop ((reports.work_valueAndGradient _).work _ ?_) fun _ _ => .inl
  exact hs

theorem minimize_accounts (strategies : StrategyFailsOwn κ)
    (reports : P.objective.Reports keep stop) {s : Session σ (DescentBy κ α) α}
    (hs : keep s.progress.oracle) : Accounts keep stop (minimize P) s := by
  unfold Accounts minimize
  rw [leads_bind]
  refine (start_accounts reports hs).imp fun stand s' hs' => ?_
  rw [leads_bind, leads_get]
  exact (upholds_descend strategies reports _ _ _ s' hs').imp_stop fun _ _ => .inl

end Descent

end Minima
