import Minima.Proofs.LeastSquares.Stage
import Minima.Proofs.Ordered

/-!
# Accepted means shorter

A proposal is accepted if the reduction is a small part of the predicted one.
The prediction is never negative, so the reduction is positive, and then the
residuals have become shorter.  Undefined and overflowing lengths fail the test.
-/

namespace Minima

open OrderedScalar

/-- The reasons that cut a run off without a result. -/
def Termination.cutsOff : Termination → Bool
  | user _ | numerical _ | wrongDimensions _ => true
  | _ => false

namespace Solver

variable {τ α : Type} [Scalar α] [OrderedScalar α]

theorem pos_of_ratio {actual predicted : α} (hpredicted : 0 ≤ predicted)
    (h : 1e-4 ≤ if Scalar.isZero predicted then 0 else actual / predicted) : 0 < actual := by
  split at h
  · exact absurd h (not_le_of_lt zero_lt_tenThousandth)
  · rename_i hzero
    have hpos : 0 < predicted := by
      refine lt_of_not_le zero_le_zero (le_refl_right hpredicted) ?_
      intro hle
      simp [Scalar.isZero, Scalar.same, hle, hpredicted] at hzero
    exact pos_of_div_pos hpos (lt_of_lt_of_le zero_lt_tenThousandth h)

theorem lt_of_reduction_pos {before after : α} (hbefore : 0 < before)
    (hfinite : Scalar.isFinite before = true)
    (h : 0 < if after * 0.1 < before then 1 - Scalar.square (after / before) else -1) :
    after < before := by
  split at h
  · have hsquare := lt_of_sub_pos h
    obtain ⟨hquotient, -⟩ := le_refl_of_mul (le_refl_left (le_of_lt hsquare))
    obtain ⟨hafter, -⟩ := le_refl_of_div hquotient
    refine lt_of_not_le hafter (le_refl_of_isFinite hfinite) ?_
    intro hle
    exact not_le_of_lt hsquare (one_le_square (one_le_div hbefore hfinite hle))
  · exact absurd neg_one_le_zero (not_le_of_lt h)

variable {norm : Norm} {system : DampedSystem α} {step : TrustStep α} {before after : α}
  {a : Account τ α}

theorem leads_compare (hbefore : 0 < before) (hfinite : Scalar.isFinite before = true) :
    Leads (compare norm system step before after) a
      (fun c a' => a' = a ∧ (1e-4 ≤ c.ratio → after < before))
      (fun reason a' => reason.cutsOff = true ∧ a' = a) := by
  unfold compare
  simp only [leads_ite, leads_bind, leads_throw, leads_pure]
  constructor
  · intro _
    exact ⟨rfl, trivial⟩
  · intro hdefined
    simp only [Bool.or_eq_true, Bool.not_eq_eq_eq_not, Bool.not_true, not_or,
      Bool.not_eq_false] at hdefined
    refine ⟨trivial, fun hratio => ?_⟩
    have hpredicted := add_nonneg (square_nonneg hdefined.1)
      (div_half_nonneg (square_nonneg hdefined.2))
    exact lt_of_reduction_pos hbefore hfinite (pos_of_ratio hpredicted hratio)

end Solver

end Minima
