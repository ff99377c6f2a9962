import Minima.Proofs.Exact.Vec
import Minima.Proofs.LineSearch.Trials

/-!
# Searches without a constraint

Where every point is feasible a trial takes the step it is given.  If the objective
answers for a point, all that a trial can fail with is the answer there, or lengths
that differ.
-/

namespace Minima

variable {σ α : Type} [Scalar α] {f : Objective σ α} {value : Vec α → Checked α α}
  {gradient : Vec α → Checked α (Vec α)}

/-- The problem without a constraint. -/
abbrev Objective.free (f : Objective σ α) : Problem σ α := ⟨f, Constraint.none.region⟩

/-! ## Requests -/

theorem leads_value_answers (evaluates : f.Evaluates value gradient) (x : Vec α)
    (p : Progress σ α) :
    Leads (f.free.value x) p (fun v p' => value x = .ok v ∧ p'.point = p.point)
      (fun e p' => value x = .error e ∧ p'.point = p.point) := by
  have hanswer : (f.free.value x p).1 = value x := evaluates.value x p.oracle
  exact (leads_value_asks f.free x p).mono_run
    (fun _ _ hrun h => ⟨hanswer.symm.trans (congrArg Prod.fst hrun), h.stays.point_eq⟩)
    (fun _ _ hrun h => ⟨hanswer.symm.trans (congrArg Prod.fst hrun), h.stays.point_eq⟩)

theorem leads_gradient_answers (evaluates : f.Evaluates value gradient) (x : Vec α)
    (p : Progress σ α) :
    Leads (f.free.gradient x) p (fun g p' => gradient x = .ok g ∧ p'.point = p.point)
      (fun e p' => gradient x = .error e ∧ p'.point = p.point) := by
  have hanswer : (f.free.gradient x p).1 = gradient x := evaluates.gradient x p.oracle
  exact (leads_gradient_asks f.free x p).mono_run
    (fun _ _ hrun h => ⟨hanswer.symm.trans (congrArg Prod.fst hrun), h.stays.point_eq⟩)
    (fun _ _ hrun h => ⟨hanswer.symm.trans (congrArg Prod.fst hrun), h.stays.point_eq⟩)

/-! ## Trials -/

theorem Region.move_none (x direction : Vec α) (step : α) :
    Constraint.none.region.move x direction step =
      (requireSame x.length direction.length).map fun _ => (step, along x direction step) := by
  unfold move
  rw [firstFeasible_of_contains rfl]
  cases requireSame x.length direction.length with
  | ok _ => rfl
  | error e => rfl

namespace LineSearch

theorem leads_trial_free (evaluates : f.Evaluates value gradient) (direction : Vec α) (step : α)
    (p : Progress σ α) :
    Leads (trial f.free direction step) p
      (fun t p' => t.step = step ∧ t.x = Region.along p.point direction step ∧
        value t.x = .ok t.value ∧ p'.point = p.point)
      (fun e p' => p'.point = p.point ∧
        (requireSame p.point.length direction.length = .error e ∨
          value (Region.along p.point direction step) = .error e)) := by
  unfold trial
  simp only [leads_bind, leads_get, leads_attempt, Region.move_none]
  cases requireSame p.point.length direction.length with
  | error e => exact ⟨trivial, .inl rfl⟩
  | ok _ =>
      simp only [Except.map, leads_pure]
      exact (leads_value_answers evaluates _ p).mono (fun v p' h => ⟨trivial, trivial, h⟩)
        (fun e p' h => ⟨h.2, .inr h.1⟩)

/-! ## A parabola from the point one -/

noncomputable def parabola : Problem (List (Evaluation ℝ)) ℝ :=
  ⟨Descent.parabola.objective, Constraint.none.region⟩

noncomputable def atOne : Progress (List (Evaluation ℝ)) ℝ := .start [] [1]

theorem dot_self_singleton (t : ℝ) : Vec.dot [t] [t] = t ^ 2 := by
  norm_num [Vec.dot, Vec.sum, Vec.mul, sq]

theorem slope_parabola (d : ℝ) : Vec.laneDot (Vec.scale 2.0 [1]) [d] = 2 * d := by
  norm_num [Vec.laneDot_eq_dot, Vec.dot, Vec.sum, Vec.mul, Vec.scale]

theorem origin_parabola (d : ℝ) :
    ∃ p₁, origin parabola [d] atOne = (.ok (1, -(2 * d)), p₁) ∧ p₁.point = [1] := by
  refine ⟨(origin parabola [d] atOne).2, Prod.ext ?_ rfl, rfl⟩
  change Except.ok (Vec.dot [1] [1], -Vec.laneDot (Vec.scale 2.0 [1]) [d]) = _
  rw [dot_self_singleton, one_pow, slope_parabola]

def onParabola (d t : ℝ) : Trial ℝ := ⟨[1 + d * t], t, (1 + d * t) ^ 2⟩

theorem trial_parabola (d t : ℝ) {p : Progress (List (Evaluation ℝ)) ℝ} (hp : p.point = [1]) :
    ∃ p', trial parabola [d] t p = (.ok (onParabola d t), p') ∧ p'.point = [1] := by
  obtain ⟨oracle, point, value, norm, values, gradients⟩ := p
  obtain rfl : point = [1] := hp
  refine ⟨(trial parabola [d] t ⟨oracle, [1], value, norm, values, gradients⟩).2,
    Prod.ext ?_ rfl, rfl⟩
  change Except.ok (Trial.mk [1 + d * t] t (Vec.dot [1 + d * t] [1 + d * t])) = _
  rw [dot_self_singleton]
  rfl

end LineSearch

end Minima
