import Minima.Proofs.Failures
import Minima.Simplex

/-!
# Failures of the simplex method

The moves ask for costs and change the memory, and do nothing else to a session.  A run stops
at its first request that fails.
-/

namespace Minima.Simplex

variable {σ α : Type} [Scalar α] {P : Problem σ α}

/-! ## Moves -/

section Moves

variable {keep : Session σ (Simplex α) α → Prop} {stop : Failure α → Session σ (Simplex α) α → Prop}

theorem upholds_extrapolate (bears : P.Bears keep stop) (highest : Nat) (factor : α) :
    Upholds keep stop (extrapolate P highest factor) := by
  refine upholds_get.bind fun s => ?_
  dsimp only
  split
  · exact upholds_pure _
  · refine (bears.value _).bind fun value => ?_
    exact .ite ((bears.remember _).bind fun _ => upholds_pure _) (upholds_pure _)

theorem upholds_shrinkVertex (bears : P.Bears keep stop) (lowest i : Nat) :
    Upholds keep stop (shrinkVertex P lowest i) := by
  refine .ite (upholds_get.bind fun s => ?_) (upholds_pure _)
  exact (bears.remember _).bind fun _ => (bears.value _).bind fun _ =>
    bears.remember _

theorem upholds_shrink (bears : P.Bears keep stop) (lowest : Nat) :
    Upholds keep stop (shrink P lowest) :=
  upholds_get.bind fun _ => upholds_forM (upholds_shrinkVertex bears lowest)

theorem upholds_contract (bears : P.Bears keep stop) (r : Ranking) :
    Upholds keep stop (contract P r) := by
  refine upholds_get.bind fun s => (upholds_extrapolate bears _ _).bind fun contracted => ?_
  cases contracted with
  | none => exact upholds_pure _
  | some contracted =>
      exact .ite ((upholds_shrink bears r.lowest).bind fun _ => upholds_pure _) (upholds_pure _)

theorem upholds_moves (bears : P.Bears keep stop) (r : Ranking) :
    Upholds keep stop (moves P r) := by
  refine (upholds_extrapolate bears _ _).bind fun reflected => ?_
  cases reflected with
  | none => exact upholds_pure _
  | some reflected =>
      refine upholds_get.bind fun s => .ite ?_ (.ite (upholds_contract bears r) (upholds_pure _))
      exact (upholds_extrapolate bears _ _).bind fun _ => upholds_pure _

theorem upholds_evaluateVertices (bears : P.Bears keep stop) (vertices : List (Vec α)) :
    Upholds keep stop (evaluateVertices P vertices) := by
  induction vertices with
  | nil => exact upholds_pure _
  | cons x rest ih =>
      refine .ite ((bears.value x).bind fun _ => ?_) ((upholds_pure _).bind fun _ => ?_)
      · exact (bears.remember _).bind fun _ => ih
      · exact (bears.remember _).bind fun _ => ih

end Moves

/-! ## Runs -/

variable {keep : σ → Prop} {stop : Failure α → σ → Prop}

theorem upholds_iterate (reports : P.objective.Reports keep stop) (n more iteration : Nat) :
    Upholds (fun s : Session σ (Simplex α) α => keep s.progress.oracle)
      (fun e s => stop e s.progress.oracle) (iterate P n more iteration) := by
  induction more generalizing iteration with
  | zero => exact fun _ h => h
  | succ more ih =>
      refine Upholds.bind (fun _ h => h) fun _ => upholds_get.bind fun s => ?_
      have hfinished : Upholds (fun s : Session σ (Simplex α) α => keep s.progress.oracle)
          (fun e s => stop e s.progress.oracle) (finished n iteration) :=
        upholds_get.bind fun s => .ite (upholds_pure _) fun _ h => h
      refine hfinished.bind fun stops => .ite (fun _ h => h) ?_
      exact (upholds_moves reports.bears _).bind fun moved => .ite (ih _) fun _ h => h

theorem failsOwn_initialVertices (region : Region α) (x : Vec α) (lambda : α) :
    FailsOwn (initialVertices region x lambda) :=
  (failsOwn_mapM fun _ => (failsOwn_move region x _ lambda).map _).bind fun _ => failsOwn_ok _

theorem checkedVertices_fails {region : Region α} {x : Vec α} {lambda : α} {e : Failure α}
    (h : checkedVertices region x lambda = .error e) :
    e.isOwn = true ∨ e = .error .infeasibleStart := by
  unfold checkedVertices at h
  dsimp only at h
  by_cases hcontains : (!region.contains x) = true
  · rw [if_pos hcontains] at h
    cases h
    exact .inr rfl
  · rw [if_neg hcontains] at h
    refine .inl (FailsOwn.ite ?_ (failsOwn_initialVertices region x lambda) e h)
    exact (failsOwn_error rfl).bind fun _ => failsOwn_initialVertices region x lambda

theorem minimize_accounts (reports : P.objective.Reports keep stop) {s : Session σ (Simplex α) α}
    (hs : keep s.progress.oracle) : Accounts keep stop (minimize P) s := by
  unfold Accounts minimize start
  simp only [leads_bind, leads_reset, leads_get, leads_attempt, leads_remember, leads_pure]
  cases hchecked : checkedVertices P.region s.progress.reset.point s.memory.lambda with
  | error e =>
      rcases checkedVertices_fails hchecked with hown | rfl
      · exact .inl (reports.own hown hs)
      · exact .inr ⟨rfl, trivial⟩
  | ok vertices =>
      have hproceed : Upholds (fun s : Session σ (Simplex α) α => keep s.progress.oracle)
          (fun e s => stop e s.progress.oracle) (proceed P vertices) :=
        upholds_get.bind fun _ => (upholds_evaluateVertices reports.bears vertices).bind fun _ =>
          upholds_get.bind fun _ => upholds_iterate reports _ _ _
      refine Leads.mono (hproceed _ ?_) (fun _ _ h => h) fun _ _ h => .inl h
      exact hs

end Minima.Simplex
