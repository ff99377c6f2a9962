import Minima.Projection
import Minima.Region

/-!
# Constraints

The constraints that can be built: no condition, positive coordinates, one
interval for all coordinates, one for each, intersections, and a constraint on
a full vector seen through a projection.  Each describes a region.
-/

namespace Minima

inductive Constraint (α : Type) where
  | none
  | positive
  | boundary (low high : α)
  | nonhomogeneous (low high : Vec α)
  | composite (first second : Constraint α)
  | projected (inner : Constraint α) (projection : Projection α)

namespace Constraint

variable {α : Type} [Scalar α]

def newBoundary (low high : α) : Checked α (Constraint α) :=
  if high < low ∨ Scalar.isUndefined low ∨ Scalar.isUndefined high then
    .error (.invalid (.crossedBounds low high))
  else .ok (boundary low high)

def newNonhomogeneous (low high : Vec α) : Checked α (Constraint α) :=
  if low.length = high.length then .ok (nonhomogeneous low high)
  else .error (.invalid (.boundLengths low.length high.length))

def between : (low high x : Vec α) → Bool
  | l :: low, h :: high, a :: x => decide (l ≤ a) && decide (a ≤ h) && between low high x
  | _, _, _ => true

def contains : Constraint α → Vec α → Bool
  | none, _ => true
  | positive, x => x.all fun a => decide (0 < a)
  | boundary low high, x => x.all fun a => decide (low ≤ a) && decide (a ≤ high)
  | nonhomogeneous low high, x => x.length == low.length && between low high x
  | composite first second, x => first.contains x && second.contains x
  | projected inner projection, x =>
      match projection.extend x with
      | .ok full => inner.contains full
      | .error _ => false

/-- A bound of the full space at the free coordinates.  Where it cannot be
computed because a length is wrong, every coordinate gets `fallback`. -/
def projectedBound (bound : Vec α → Checked α (Vec α)) (projection : Projection α)
    (fallback : α) (x : Vec α) : Checked α (Vec α) :=
  let everywhere := List.replicate x.length fallback
  match projection.extend x with
  | .error _ => .ok everywhere
  | .ok full => do
      match projection.project (← bound full) with
      | .error _ => .ok everywhere
      | .ok y => .ok y

def joinBounds (join : α → α → α) (first second : Vec α) : Checked α (Vec α) := do
  requireSame first.length second.length
  return List.zipWith join first second

def upper : Constraint α → Vec α → Checked α (Vec α)
  | none, x => .ok (List.replicate x.length Scalar.largest)
  | positive, x => .ok (List.replicate x.length Scalar.largest)
  | boundary _ high, x => .ok (List.replicate x.length high)
  | nonhomogeneous _ high, _ => .ok high
  | composite first second, x => do joinBounds Scalar.min (← first.upper x) (← second.upper x)
  | projected inner projection, x => projectedBound inner.upper projection Scalar.largest x

def lower : Constraint α → Vec α → Checked α (Vec α)
  | none, x => .ok (List.replicate x.length (-Scalar.largest))
  | positive, x => .ok (Vec.zeros x.length)
  | boundary low _, x => .ok (List.replicate x.length low)
  | nonhomogeneous low _, _ => .ok low
  | composite first second, x => do joinBounds Scalar.max (← first.lower x) (← second.lower x)
  | projected inner projection, x => projectedBound inner.lower projection (-Scalar.largest) x

def region (c : Constraint α) : Region α := ⟨c.contains, c.upper, c.lower⟩

end Constraint

end Minima
