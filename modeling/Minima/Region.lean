import Minima.Failure
import Minima.Vec

/-!
# Feasible regions

A region decides which points are feasible and gives bounds on their
coordinates.  A proposed step is halved until it ends inside the region.
-/

namespace Minima

structure Region (α : Type) where
  contains : Vec α → Bool
  /-- Upper bounds of the coordinates, for regions around the given point. -/
  upper : Vec α → Checked α (Vec α)
  lower : Vec α → Checked α (Vec α)

namespace Region

variable {α : Type} [Scalar α]

def maxHalvings : Nat := 200

def along (x direction : Vec α) (step : α) : Vec α :=
  Vec.add x (Vec.scale step direction)

/-- The first feasible point among those at `step`, half of it, a quarter, and
so on, with at most `halvings` halvings.  Each is computed from `x` anew. -/
def firstFeasible (contains : Vec α → Bool) (x direction : Vec α) :
    (halvings : Nat) → (step : α) → Option (α × Vec α)
  | 0, step =>
      let y := along x direction step
      if contains y then some (step, y) else none
  | halvings + 1, step =>
      let y := along x direction step
      if contains y then some (step, y)
      else firstFeasible contains x direction halvings (step * 0.5)

/-- The step taken from `x` along `direction`, at most `step`, and the point it leads to. -/
def move (region : Region α) (x direction : Vec α) (step : α) : Checked α (α × Vec α) := do
  requireSame x.length direction.length
  match firstFeasible region.contains x direction maxHalvings step with
  | some taken => .ok taken
  | none => .error (.error (.infeasibleStep maxHalvings))

end Region

end Minima
