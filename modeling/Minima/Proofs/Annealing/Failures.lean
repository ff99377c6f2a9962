import Minima.Proofs.Annealing.Passes
import Minima.Proofs.Simplex.Failures

/-!
# Failures of simulated annealing

The moves ask for costs and draw from the source, and do nothing else to a session.  A run
stops at its first request that fails.
-/

namespace Minima.Annealing

variable {ρ σ α : Type} [Scalar α] {P : Problem σ α}

/-! ## Moves -/

section Moves

variable {keep : Session σ (Annealing ρ α) α → Prop}
  {stop : Failure α → Session σ (Annealing ρ α) α → Prop}

theorem upholds_evaluate (bears : P.Bears keep stop) (x : Vec α) :
    Upholds keep stop (evaluate P x) :=
  .ite ((bears.value x).bind fun _ => upholds_pure _) (upholds_pure _)

theorem upholds_shrink (bears : P.Bears keep stop) (lowest : Nat) (places : List Nat)
    (state : State α) : Upholds keep stop (shrink P lowest places state) := by
  induction places generalizing state with
  | nil => exact upholds_pure _
  | cons i rest ih => exact .ite (ih _) ((upholds_evaluate bears _).bind fun _ => ih _)

variable [RandomSource ρ]

theorem upholds_noise (bears : P.Bears keep stop) (cold : α) : Upholds keep stop (noise cold) :=
  Upholds.bind (fun _ hs => bears.memory _ hs) fun _ => upholds_pure _

theorem upholds_tryMove (bears : P.Bears keep stop) (cold : α) (r : NoisyRanking α) (factor : α)
    (state : State α) : Upholds keep stop (tryMove P cold r factor state) :=
  (upholds_evaluate bears _).bind fun _ => (upholds_noise bears cold).bind fun _ =>
    .ite (upholds_pure _) (upholds_pure _)

theorem upholds_moves (bears : P.Bears keep stop) (cold : α) (r : NoisyRanking α)
    (state : State α) : Upholds keep stop (moves P cold r state) := by
  refine (upholds_tryMove bears _ _ _ _).bind fun reflected => ?_
  refine .ite ?_ (.ite ?_ (upholds_pure _))
  · exact (upholds_tryMove bears _ _ _ _).bind fun _ => upholds_pure _
  refine (upholds_tryMove bears _ _ _ _).bind fun contracted => ?_
  exact .ite ((upholds_shrink bears _ _ _).bind fun _ => upholds_pure _) (upholds_pure _)

theorem upholds_rank (bears : P.Bears keep stop) (cold : α) (values : Vec α) :
    Upholds keep stop (rank cold values) :=
  (upholds_mapM fun _ => (upholds_noise bears cold).bind fun _ => upholds_pure _).bind fun _ =>
    upholds_pure _

end Moves

/-! ## Runs -/

variable [RandomSource ρ] {keep : σ → Prop} {stop : Failure α → σ → Prop}

theorem upholds_pass (reports : P.objective.Reports keep stop) (clock : Clock α)
    (state : State α) :
    Upholds (fun s : Session σ (Annealing ρ α) α => keep s.progress.oracle)
      (fun e s => stop e s.progress.oracle) (pass P clock state) := by
  have hfinished (iteration : Nat) (size : α) :
      Upholds (fun s : Session σ (Annealing ρ α) α => keep s.progress.oracle)
        (fun e s => stop e s.progress.oracle) (finished iteration size) :=
    Upholds.bind (fun _ h => h) fun _ => .ite (upholds_pure _) fun _ h => h
  refine (upholds_rank reports.bears _ _).bind fun r => ?_
  refine (hfinished _ _).bind fun stops => .ite (fun _ h => h) ?_
  exact (upholds_moves reports.bears _ _ _).bind fun _ => upholds_get.bind fun _ => upholds_pure _

theorem upholds_passes (reports : P.objective.Reports keep stop) (more : Nat) (clock : Clock α)
    (state : State α) :
    Upholds (fun s : Session σ (Annealing ρ α) α => keep s.progress.oracle)
      (fun e s => stop e s.progress.oracle) (passes P more clock state) := by
  induction more generalizing clock state with
  | zero => exact fun _ h => h
  | succ more ih =>
      rw [passes_succ]
      refine (upholds_pass reports _ _).bind fun next => ?_
      cases next with
      | none => exact fun _ h => h
      | some next => exact ih next.1 next.2

theorem minimize_accounts (reports : P.objective.Reports keep stop)
    {s : Session σ (Annealing ρ α) α} (hs : keep s.progress.oracle) :
    Accounts keep stop (minimize P) s := by
  unfold Accounts minimize
  simp only [leads_bind, leads_reset, leads_get, leads_ite, leads_throw, leads_attempt]
  refine ⟨fun _ => .inl (reports.own rfl hs), fun _ => ?_⟩
  refine ⟨fun _ => .inr ⟨trivial, trivial⟩, fun _ => ?_⟩
  cases hvertices : Simplex.initialVertices P.region s.progress.reset.point s.memory.lambda with
  | error e => exact .inl (reports.own (Simplex.failsOwn_initialVertices _ _ _ e hvertices) hs)
  | ok vertices =>
      refine Leads.mono (upholds_mapM (upholds_evaluate reports.bears) _ hs) ?_ fun _ _ h => .inl h
      intro values s' hs'
      exact (upholds_passes reports _ _ _ s' hs').imp_stop fun _ _ => .inl

end Minima.Annealing
