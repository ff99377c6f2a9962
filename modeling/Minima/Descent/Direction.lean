import Minima.DenseMatrix

/-!
# Search directions

A direction strategy proposes the direction of the next line search and the
first step along it.  Steepest descent follows the negative gradient.  The
conjugate gradient strategy adds a multiple of the last direction, and starts a
search at the minimiser of the quadratic model along it.  The quasi-Newton
strategy keeps an approximation of the inverse Hessian.  Any other state that
answers the same questions (`Directions`) serves a descent method as well.

The points and gradients of a strategy come from outside, so every combination
of two vectors is checked for their lengths.
-/

namespace Minima

structure Visited (α : Type) where
  x : Vec α
  gradient : Vec α
  gradientNormSq : α

inductive ConjugateFormula where
  | fletcherReeves
  | polakRibiere
  deriving DecidableEq, Repr

inductive Strategy (α : Type) where
  | steepest
  /-- The curvature is the one seen over the last step. -/
  | conjugate (formula : ConjugateFormula) (curvature : Option α)
  | quasiNewton (inverseHessian : DenseMatrix α)

namespace Vec

variable {α : Type} [Scalar α]

def sub? (a b : Vec α) : Checked α (Vec α) := do
  requireSame a.length b.length
  return sub a b

def laneDot? (a b : Vec α) : Checked α α := do
  requireSame a.length b.length
  return laneDot a b

end Vec

namespace Strategy

variable {α : Type} [Scalar α]

def name : Strategy α → String
  | steepest => "steepest descent"
  | conjugate .fletcherReeves _ => "conjugate gradient (Fletcher-Reeves)"
  | conjugate .polakRibiere _ => "conjugate gradient (Polak-Ribiere)"
  | quasiNewton _ => "BFGS"

def quasiNewtonUnset : Strategy α := quasiNewton ⟨0, []⟩

def reset (dimension : Nat) : Strategy α → Strategy α
  | steepest => steepest
  | conjugate formula _ => conjugate formula none
  | quasiNewton _ => quasiNewton (DenseMatrix.identity dimension)

def initialStep (s : Strategy α) (previous : α) (gradient direction : Vec α) : Checked α α :=
  match s with
  | steepest => .ok previous
  | conjugate _ none => .ok 1
  | conjugate _ (some curvature) =>
      if 0 < curvature then do
        let along ← Vec.laneDot? gradient direction
        return -along / (curvature * Vec.normSq direction)
      else .ok 1
  | quasiNewton _ => .ok 1

def curvature (step change : Vec α) : Checked α (Option α) :=
  let lengthSq := Vec.normSq step
  if 0 < lengthSq then do
    let along ← Vec.laneDot? step change
    return some (along / lengthSq)
  else .ok none

def ConjugateFormula.factor (formula : ConjugateFormula) (previous current : Visited α)
    (change : Vec α) : Checked α α :=
  match formula with
  | .fletcherReeves => .ok (current.gradientNormSq / previous.gradientNormSq)
  | .polakRibiere => do
      let along ← Vec.laneDot? current.gradient change
      return Scalar.max (along / previous.gradientNormSq) 0

def curvatureEpsilon : α := 1e-8

/-- The inverse Hessian after a step with the given change of the gradient.
Without enough curvature it stays as it is. -/
def updateInverse (h : DenseMatrix α) (step change : Vec α) : DenseMatrix α :=
  let image := h.mulVec change
  let along := Vec.laneDot step change
  let length := Vec.laneDot change image
  if Scalar.sqrt (curvatureEpsilon * Vec.normSq change * Vec.normSq step) < along then
    let u := Vec.sub (Vec.scale (1 / along) step) (Vec.scale (1 / length) image)
    h.addOuter (1 / along) step step
      |>.addOuter (-(1 / length)) image image
      |>.addOuter length u u
  else h

/-- The direction after a step from `previous` to `current` along `direction`,
and the strategy with what the step taught it. -/
def next (s : Strategy α) (previous current : Visited α) (direction : Vec α) :
    Checked α (Vec α × Strategy α) :=
  match s with
  | steepest => .ok (Vec.neg current.gradient, steepest)
  | conjugate formula _ => do
      let step ← Vec.sub? current.x previous.x
      let change ← Vec.sub? current.gradient previous.gradient
      let seen ← curvature step change
      if Scalar.isZero previous.gradientNormSq then
        return (Vec.neg current.gradient, conjugate formula seen)
      else
        let factor ← ConjugateFormula.factor formula previous current change
        let direction ← Vec.sub? (Vec.scale factor direction) current.gradient
        return (direction, conjugate formula seen)
  | quasiNewton h => do
      let dimension := current.x.length
      let h := if h.rows = dimension then h else DenseMatrix.identity dimension
      let step ← Vec.sub? current.x previous.x
      let change ← Vec.sub? current.gradient previous.gradient
      requireSame dimension change.length
      let h := updateInverse h step change
      return (Vec.neg (h.mulVec current.gradient), quasiNewton h)

end Strategy

class Directions (κ : Type) (α : outParam Type) where
  reset : (dimension : Nat) → κ → κ
  initialStep : κ → (previous : α) → (gradient direction : Vec α) → Checked α α
  next : κ → (previous current : Visited α) → (direction : Vec α) → Checked α (Vec α × κ)

instance {α : Type} [Scalar α] : Directions (Strategy α) α where
  reset := Strategy.reset
  initialStep := Strategy.initialStep
  next := Strategy.next

end Minima
