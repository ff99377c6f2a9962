import Minima.StoppingRule

/-!
# The budget of a stopping rule

No check changes the budget, and the check of the budget changes nothing until it fires.
-/

namespace Minima.StoppingRule

variable {α : Type} {c : StoppingRule α} {iteration : Nat}

theorem checkMaxIterations_eq_false (h : (c.checkMaxIterations iteration).1 = false) :
    (c.checkMaxIterations iteration).2 = c ∧ iteration < c.maxIterations := by
  unfold checkMaxIterations at h ⊢
  split at h
  · rename_i hlt
    rw [if_pos hlt]
    exact ⟨rfl, hlt⟩
  · contradiction

theorem checkMaxIterations_of_le (h : c.maxIterations ≤ iteration) :
    c.checkMaxIterations iteration = c.mark .maxIterations := if_neg (Nat.not_lt.mpr h)

theorem outcome_checkMaxIterations (c : StoppingRule α) (iteration : Nat) :
    (c.checkMaxIterations iteration).2.outcome =
      if iteration < c.maxIterations then c.outcome else .maxIterations := by
  unfold checkMaxIterations
  split
  · rfl
  · rfl

theorem outcome_checkStationary (c : StoppingRule α) (changed : Bool) (o : Outcome) :
    (c.checkStationary changed o).2.outcome =
      if (c.checkStationary changed o).1 then o else c.outcome := by
  unfold checkStationary
  split
  · rfl
  split
  · rfl
  · unfold mark
    split
    · rfl
    · rfl

theorem maxIterations_checkMaxIterations (c : StoppingRule α) (iteration : Nat) :
    (c.checkMaxIterations iteration).2.maxIterations = c.maxIterations := by
  unfold checkMaxIterations
  split
  · rfl
  · rfl

theorem maxIterations_checkStationary (c : StoppingRule α) (changed : Bool) (o : Outcome) :
    (c.checkStationary changed o).2.maxIterations = c.maxIterations := by
  unfold checkStationary
  split
  · rfl
  split
  · rfl
  · unfold mark
    split
    · rfl
    · rfl

theorem maxIterations_pos (c : StoppingRule α) : 0 < c.maxIterations :=
  Nat.lt_of_lt_of_le (Nat.zero_lt_of_lt c.one_lt_stationaryBudget) c.stationaryBudget_le

/-! ## The budget of a short run -/

theorem two_le_three : 2 ≤ 3 := by decide

end Minima.StoppingRule
