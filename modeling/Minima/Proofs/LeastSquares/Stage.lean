import Minima.LeastSquares.Minimize
import Minima.Proofs.Leads

/-!
# Stages of a run

What a stage leads to is said by `Leads`, with the account as the state and a
termination where the run ends.
-/

namespace Minima.Solver

variable {τ α β : Type} {a : Account τ α} {stop : Termination → Account τ α → Prop}

@[simp]
theorem leads_call {act : StateM τ β} {post : β → Account τ α → Prop} :
    Leads (call act) a post stop ↔
      post (act a.target).1 { a with target := (act a.target).2 } := Iff.rfl

theorem leads_evaluate_stop [Scalar α] (norm : Norm) (t : Target τ α) :
    Leads (evaluate norm t) a (fun _ _ => True) (fun reason _ => reason = .user .residuals) := by
  unfold evaluate
  simp only [leads_bind, leads_modify, leads_call]
  split
  · rfl
  · trivial

theorem minimize_of_leads [Scalar α] {s : Solver α} {norm : Norm} {t : Target τ α}
    {start finish : τ}
    {report : Report α} (h : Leads (s.run norm t) ⟨start, 0, none⟩ stop stop)
    (hrun : s.minimize norm t start = (report, finish)) :
    ∃ a : Account τ α, stop report.termination a ∧ report.objective = a.objective ∧
      finish = a.target := by
  unfold Solver.minimize at hrun
  unfold Leads at h
  rcases hresult : s.run norm t ⟨start, 0, none⟩ with ⟨result, a⟩
  rw [hresult] at hrun h
  cases hrun
  cases result with
  | ok reason => exact ⟨a, h, rfl, rfl⟩
  | error reason => exact ⟨a, h, rfl, rfl⟩

end Minima.Solver
