import Minima.Objective

/-!
# Models to be fitted

A model gives target data and the values that its parameters predict for them.
Its objective is the squared length of the differences.
-/

namespace Minima

structure Model (σ α : Type) where
  /-- The number of parameters. -/
  size : Nat
  targetAndFit : Vec α → Eval σ α (Vec α × Vec α)
  /-- Target, fit, and the Jacobian of the fit with one row for each target. -/
  targetFitAndJacobian : Vec α → Eval σ α (Vec α × Vec α × DenseMatrix α)

namespace Model

variable {σ α : Type} [Scalar α]

def difference (target fit : Vec α) : Eval σ α (Vec α) := do
  attempt (requireSame target.length fit.length)
  return Vec.sub target fit

def values (m : Model σ α) (x : Vec α) : Eval σ α (Vec α) := do
  let (target, fit) ← m.targetAndFit x
  difference target fit

def valueAndGradient (m : Model σ α) (x : Vec α) : Eval σ α (α × Vec α) := do
  let (target, fit, jacobian) ← m.targetFitAndJacobian x
  let d ← difference target fit
  attempt (requireSame jacobian.rows d.length)
  return (Vec.normSq d, Vec.scale (-2.0) (jacobian.transposeMulVec d))

def objective (m : Model σ α) : Objective σ α where
  value x := do return Vec.normSq (← m.values x)
  values := m.values
  gradient x := do return (← m.valueAndGradient x).2
  valueAndGradient := m.valueAndGradient
  jacobian x := do return (← m.targetFitAndJacobian x).2.2.neg
  step := Objective.usualStep

/-- The model of functions of the parameters alone.  The fit is computed before
the rows of its Jacobian, which have one entry for each parameter. -/
def ofFunctions (size : Nat) (target : Vec α) (fit : Vec α → Except String (Vec α))
    (jacobian : Vec α → Except String (List (Vec α))) : Model σ α where
  size
  targetAndFit x := do return (target, ← given (fit x))
  targetFitAndJacobian x := do
    let predicted ← given (fit x)
    let rows ← given (jacobian x)
    if rows.all (·.length == x.length) then
      return (target, predicted, DenseMatrix.ofRows x.length rows)
    else throw .sizeMismatch
where
  given {β : Type} (b : Except String β) : Eval σ α β :=
    attempt (b.mapError fun reason => .error (.costFunction reason))

end Model

end Minima
