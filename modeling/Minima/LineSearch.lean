import Minima.Problem

/-!
# Line searches

A line search looks for a step along a direction from the current point.
Trial points come from the region, so that only feasible ones are evaluated.
The first trial is followed by at most `budget + 1` others; the search fails if
the last of these is made.

The slope is the directional derivative with its sign changed, positive along
a direction of descent.
-/

namespace Minima

structure SearchResult (α : Type) where
  step : α
  x : Vec α
  value : α
  gradient : Vec α
  gradientNormSq : α
  /-- The slope at the starting point. -/
  slope : α
  succeeded : Bool

namespace LineSearch

structure Trial (α : Type) where
  x : Vec α
  step : α
  value : α

variable {σ α : Type} [Scalar α]

/-- Value and slope at the current point.  A stored value is used as it is. -/
def origin (P : Problem σ α) (direction : Vec α) : Work σ α (α × α) := do
  let p ← get
  let (value, gradient) ← match p.value with
    | some value => do
        let gradient ← P.gradient p.point
        pure (value, gradient)
    | none => P.valueAndGradient p.point
  attempt (requireSame gradient.length direction.length)
  return (value, -Vec.laneDot gradient direction)

/-- The feasible point reached with at most the given step, and its value. -/
def trial (P : Problem σ α) (direction : Vec α) (step : α) : Work σ α (Trial α) := do
  let (step, x) ← attempt (P.region.move (← get).point direction step)
  return ⟨x, step, ← P.value x⟩

def finish (P : Problem σ α) (slope : α) (t : Trial α) (succeeded : Bool) :
    Work σ α (SearchResult α) := do
  let gradient ← P.gradient t.x
  return ⟨t.step, t.x, t.value, gradient, Vec.normSq gradient, slope, succeeded⟩

end LineSearch

end Minima
