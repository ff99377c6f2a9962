import Minima.DenseMatrix
import Minima.Projection

/-!
# Objectives

An objective is what the methods minimise: a cost, components whose squares it
may be the sum of, and derivatives.  Evaluations are steps of a machine with
state `σ` and may fail, and the state outlives a failure.  What an objective
does not give itself comes from central differences and from the other
evaluations.
-/

namespace Minima

abbrev Eval (σ α β : Type) := ExceptT (Failure α) (StateM σ) β

structure Objective (σ α : Type) where
  value : Vec α → Eval σ α α
  values : Vec α → Eval σ α (Vec α)
  gradient : Vec α → Eval σ α (Vec α)
  valueAndGradient : Vec α → Eval σ α (α × Vec α)
  /-- The Jacobian of the components, one row for each. -/
  jacobian : Vec α → Eval σ α (DenseMatrix α)
  /-- The step of the central differences. -/
  step : α

namespace Objective

variable {σ α : Type} [Scalar α]

def singleton (value : Vec α → Eval σ α α) (x : Vec α) : Eval σ α (Vec α) := do
  return [← value x]

/-- Moves coordinate `i` of the working vector to both sides of where it is in `x`, and back.
The answers there are put together. -/
def turn {β γ : Type} (ask : Vec α → Eval σ α β) (quotient : β → β → Checked α γ) (h : α)
    (x : Vec α) (i : Nat) (working : Vec α) : Eval σ α (γ × Vec α) := do
  let ahead := working.set i (x.getD i 0 + h)
  let after ← ask ahead
  let behind := ahead.set i (x.getD i 0 - h)
  let before ← ask behind
  return (← attempt (quotient after before), behind.set i (x.getD i 0))

/-- Turns at the coordinates, each with the working vector that the one before it leaves. -/
def sweep {γ : Type} (turn : Nat → Vec α → Eval σ α (γ × Vec α)) :
    List Nat → Vec α → Eval σ α (List γ)
  | [], _ => return []
  | i :: rest, working => do
      let (made, working) ← turn i working
      return made :: (← sweep turn rest working)

def slope (h after before : α) : Checked α α := return 0.5 * (after - before) / h

def slopes (h : α) (after before : Vec α) : Checked α (Vec α) := do
  requireSame after.length before.length
  return Vec.scale (0.5 / h) (Vec.sub after before)

def centralGradient (value : Vec α → Eval σ α α) (h : α) (x : Vec α) : Eval σ α (Vec α) :=
  sweep (turn value (slope h) h x) (List.range x.length) x

def centralJacobian (values : Vec α → Eval σ α (Vec α)) (h : α) (x : Vec α) :
    Eval σ α (DenseMatrix α) := do
  match ← sweep (turn values (slopes h) h x) (List.range x.length) x with
  | [] => return ⟨(← values x).length, []⟩
  | first :: rest => attempt (DenseMatrix.ofColumns first.length (first :: rest))

def gradientThenValue (value : Vec α → Eval σ α α) (gradient : Vec α → Eval σ α (Vec α))
    (x : Vec α) : Eval σ α (α × Vec α) := do
  let g ← gradient x
  return (← value x, g)

def usualStep : α := 1e-8

def ofParts (value : Vec α → Eval σ α α) (values : Option (Vec α → Eval σ α (Vec α)))
    (gradient : Option (Vec α → Eval σ α (Vec α)))
    (jacobian : Option (Vec α → Eval σ α (DenseMatrix α))) (step : α) : Objective σ α :=
  let values := values.getD (singleton value)
  let gradient := gradient.getD (centralGradient value step)
  {
    value
    values
    gradient
    valueAndGradient := gradientThenValue value gradient
    jacobian := jacobian.getD (centralJacobian values step)
    step
  }

/-- An objective as a function of the free coordinates.  Derivatives are those
of the restricted function. -/
def projected (f : Objective σ α) (p : Projection α) : Objective σ α :=
  let value y := do f.value (← attempt (p.extend y))
  let values y := do f.values (← attempt (p.extend y))
  ofParts value (some values) none none f.step

end Objective

end Minima
