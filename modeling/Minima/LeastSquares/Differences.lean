import Minima.LeastSquares.Target

/-!
# Jacobians of a target by differences

The columns are found one after the other.  A turn moves one coordinate of a
working vector, and the target with it, and puts the coordinate back.  Whatever
happens on the way, the target is moved back to the given point at the end.
-/

namespace Minima.Target

variable {τ α : Type} [Scalar α]

def residualsAt (t : Target τ α) (x : Vec α) : StateM τ (Option (Vec α)) := do
  t.setParams x
  t.residuals

/-- Two answers of one length are put together; other ones are not. -/
def quotients (h : α) : Option (Vec α) → Option (Vec α) → Option (Vec α)
  | some after, some before =>
      if after.length = before.length then some (Vec.divide (Vec.sub after before) h) else none
  | _, _ => none

/-- Turns at the coordinates up to the first one that fails, each with the working vector that
the one before it leaves. -/
def sweep (turn : Nat → Vec α → StateM τ (Option (Vec α) × Vec α)) :
    List Nat → Vec α → StateM τ (Option (List (Vec α)))
  | [], _ => return some []
  | j :: rest, working => do
      match ← turn j working with
      | (none, _) => return none
      | (some column, working) =>
        match ← sweep turn rest working with
        | none => return none
        | some columns => return some (column :: columns)

def forwardStep (epsfcn a : α) : α :=
  let eps := Scalar.sqrt (Scalar.max epsfcn Scalar.epsilon)
  let h := eps * Scalar.abs a
  if Scalar.isZero h then eps else h

def forwardTurn (t : Target τ α) (residuals : Vec α) (epsfcn : α) (j : Nat) (working : Vec α) :
    StateM τ (Option (Vec α) × Vec α) := do
  let kept := working.getD j 0
  let h := forwardStep epsfcn kept
  let ahead := working.set j (kept + h)
  let perturbed ← t.residualsAt ahead
  return (quotients h perturbed (some residuals), ahead.set j kept)

def forwardJacobian (t : Target τ α) (x residuals : Vec α) (epsfcn : α) :
    StateM τ (Option (DenseMatrix α)) := do
  let found ← sweep (t.forwardTurn residuals epsfcn) (List.range x.length) x
  t.setParams x
  return found.map fun columns => ⟨residuals.length, columns⟩

def centralStep (a : α) : α := Scalar.cbrt Scalar.epsilon * Scalar.max 1 (Scalar.abs a)

def centralTurn (t : Target τ α) (j : Nat) (working : Vec α) :
    StateM τ (Option (Vec α) × Vec α) := do
  let kept := working.getD j 0
  let h := centralStep kept
  let ahead := working.set j (kept + h)
  let after ← t.residualsAt ahead
  let behind := ahead.set j (kept - h)
  let before ← t.residualsAt behind
  return (quotients (2.0 * h) after before, behind.set j kept)

/-- Central differences at `x`.  There is no answer without parameters. -/
def centralJacobian (t : Target τ α) (x : Vec α) :
    StateM τ (Checked α (Option (DenseMatrix α))) := do
  let found ← sweep t.centralTurn (List.range x.length) x
  t.setParams x
  match found with
  | some (first :: rest) => return some <$> DenseMatrix.ofColumns first.length (first :: rest)
  | _ => return .ok none

end Minima.Target
