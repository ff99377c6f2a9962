import Minima.LeastSquares.Differences
import Minima.Proofs.Objective.Sweep

/-!
# The working vector of a target's differences

A turn moves the target, and leaves the working vector as it was.  All columns are therefore found
from the given point.
-/

namespace Minima.Target

variable {τ α : Type} [Scalar α] {t : Target τ α} {x residuals : Vec α} {epsfcn : α}

def columns (column : Nat → StateM τ (Option (Vec α))) : List Nat → StateM τ (Option (List (Vec α)))
  | [] => return some []
  | j :: rest => do
      match ← column j with
      | none => return none
      | some c =>
        match ← columns column rest with
        | none => return none
        | some cs => return some (c :: cs)

def forwardColumn (t : Target τ α) (x residuals : Vec α) (epsfcn : α) (j : Nat) :
    StateM τ (Option (Vec α)) := do
  let h := forwardStep epsfcn (x.getD j 0)
  let perturbed ← t.residualsAt (x.modify j (· + h))
  return quotients h perturbed (some residuals)

def centralColumn (t : Target τ α) (x : Vec α) (j : Nat) : StateM τ (Option (Vec α)) := do
  let h := centralStep (x.getD j 0)
  let after ← t.residualsAt (x.modify j (· + h))
  let before ← t.residualsAt (x.modify j (· - h))
  return quotients (2.0 * h) after before

theorem forwardTurn_self (j : Nat) :
    t.forwardTurn residuals epsfcn j x = (·, x) <$> t.forwardColumn x residuals epsfcn j := by
  have hahead := set_getD_eq_modify x j 0 (· + forwardStep epsfcn (x.getD j 0))
  unfold forwardTurn forwardColumn
  dsimp only
  rw [List.set_set, hahead, set_getD_self]
  rfl

theorem centralTurn_self (j : Nat) :
    t.centralTurn j x = (·, x) <$> t.centralColumn x j := by
  have hahead := set_getD_eq_modify x j 0 (· + centralStep (x.getD j 0))
  have hbehind := set_getD_eq_modify x j 0 (· - centralStep (x.getD j 0))
  unfold centralTurn centralColumn
  dsimp only
  rw [List.set_set, List.set_set, hahead, hbehind, set_getD_self]
  rfl

omit [Scalar α] in
theorem sweep_eq_columns {turn : Nat → Vec α → StateM τ (Option (Vec α) × Vec α)}
    {column : Nat → StateM τ (Option (Vec α))} (h : ∀ j, turn j x = (·, x) <$> column j)
    (js : List Nat) : sweep turn js x = columns column js := by
  induction js with
  | nil => rfl
  | cons j js ih =>
      rw [sweep, columns, h, bind_map_left]
      refine bind_congr fun found => ?_
      cases found with
      | none => rfl
      | some c => exact congrArg (· >>= _) ih

theorem forwardJacobian_eq (t : Target τ α) (x residuals : Vec α) (epsfcn : α) :
    t.forwardJacobian x residuals epsfcn = (do
      let found ← columns (t.forwardColumn x residuals epsfcn) (List.range x.length)
      t.setParams x
      return found.map fun columns => ⟨residuals.length, columns⟩) := by
  unfold forwardJacobian
  exact congrArg (· >>= _) (sweep_eq_columns forwardTurn_self (List.range x.length))

theorem centralJacobian_eq (t : Target τ α) (x : Vec α) :
    t.centralJacobian x = (do
      let found ← columns (t.centralColumn x) (List.range x.length)
      t.setParams x
      match found with
      | some (first :: rest) => return some <$> DenseMatrix.ofColumns first.length (first :: rest)
      | _ => return .ok none) := by
  unfold centralJacobian
  exact congrArg (· >>= _) (sweep_eq_columns centralTurn_self (List.range x.length))

end Minima.Target
