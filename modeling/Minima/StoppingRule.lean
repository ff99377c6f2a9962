import Minima.Failure
import Minima.Scalar

/-!
# Stopping

A `StoppingRule` holds the budgets and tolerances of a run together with the
outcome of the checks made so far.  Every check answers whether it fired and
the rule after it.  The two stationary checks share a streak of calls that
saw no change, and fire once the streak is longer than its budget.
-/

namespace Minima

inductive Outcome where
  | running
  | maxIterations
  | stationaryPoint
  | stationaryValue
  | stationaryAccuracy
  | stationaryGradient
  | unknown
  deriving DecidableEq, Repr

namespace Outcome

def isTerminal (o : Outcome) : Bool := o != running

def succeeded : Outcome → Bool
  | stationaryPoint | stationaryValue | stationaryAccuracy | stationaryGradient => true
  | running | maxIterations | unknown => false

end Outcome

structure StoppingRule (α : Type) where
  maxIterations : Nat
  stationaryBudget : Nat
  rootEpsilon : α
  functionEpsilon : α
  gradientEpsilon : α
  outcome : Outcome
  streak : Nat
  one_lt_stationaryBudget : 1 < stationaryBudget
  stationaryBudget_le : stationaryBudget ≤ maxIterations

namespace StoppingRule

variable {α : Type}

/-- Without a stationary budget half of the iterations are taken, and at most a
hundred; without a gradient tolerance the one of the function. -/
def new (maxIterations : Nat) (stationaryBudget : Option Nat) (rootEpsilon functionEpsilon : α)
    (gradientEpsilon : Option α) : Checked α (StoppingRule α) :=
  let budget := stationaryBudget.getD (min (maxIterations / 2) 100)
  if low : budget ≤ 1 then .error (.invalid (.stationaryBudgetTooSmall budget))
  else if high : maxIterations < budget then
    .error (.invalid (.stationaryBudgetTooLarge budget maxIterations))
  else
    .ok {
      maxIterations
      stationaryBudget := budget
      rootEpsilon
      functionEpsilon
      gradientEpsilon := gradientEpsilon.getD functionEpsilon
      outcome := .running
      streak := 0
      one_lt_stationaryBudget := Nat.lt_of_not_le low
      stationaryBudget_le := Nat.le_of_not_lt high
    }

def reset (c : StoppingRule α) : StoppingRule α := { c with outcome := .running, streak := 0 }

/-- Takes an outcome over, unless it is that of a run that goes on, and whether it has. -/
def mark (c : StoppingRule α) (o : Outcome) : Bool × StoppingRule α :=
  (o.isTerminal, if o.isTerminal then { c with outcome := o } else c)

def checkMaxIterations (c : StoppingRule α) (iteration : Nat) : Bool × StoppingRule α :=
  if iteration < c.maxIterations then (false, c) else c.mark .maxIterations

def checkStationary (c : StoppingRule α) (changed : Bool) (o : Outcome) : Bool × StoppingRule α :=
  if changed then (false, { c with streak := 0 })
  else if c.streak + 1 ≤ c.stationaryBudget then (false, { c with streak := c.streak + 1 })
  else mark { c with streak := c.streak + 1 } o

variable [Scalar α]

def checkStationaryPoint (c : StoppingRule α) (before after : α) : Bool × StoppingRule α :=
  c.checkStationary (decide (c.rootEpsilon ≤ Scalar.abs (after - before))) .stationaryPoint

def checkStationaryValue (c : StoppingRule α) (before after : α) : Bool × StoppingRule α :=
  c.checkStationary (decide (c.functionEpsilon ≤ Scalar.abs (after - before))) .stationaryValue

/-- Applies only to objectives that are known to be non-negative. -/
def checkAccuracy (c : StoppingRule α) (value : α) (nonNegative : Bool) : Bool × StoppingRule α :=
  if !nonNegative || decide (c.functionEpsilon ≤ value) then (false, c)
  else c.mark .stationaryAccuracy

def checkGradient (c : StoppingRule α) (norm : α) : Bool × StoppingRule α :=
  if c.gradientEpsilon ≤ norm then (false, c) else c.mark .stationaryGradient

/-- The four scalar checks in order.  The first that fires decides, and those
after it are not made. -/
def check (c : StoppingRule α) (iteration : Nat) (nonNegative : Bool)
    (before after gradientNorm : α) : Bool × StoppingRule α :=
  match c.checkMaxIterations iteration with
  | (true, c) => (true, c)
  | (false, c) =>
    match c.checkStationaryValue before after with
    | (true, c) => (true, c)
    | (false, c) =>
      match c.checkAccuracy after nonNegative with
      | (true, c) => (true, c)
      | (false, c) => c.checkGradient gradientNorm

end StoppingRule

end Minima
