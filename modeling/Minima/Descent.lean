import Minima.Descent.Direction
import Minima.LineSearch.Backtracking
import Minima.LineSearch.Bracketing
import Minima.Session

/-!
# Descent methods

A descent method alternates line searches and directions.  It stops when the
value changes little relative to its size, when the iterations are spent, or
when a line search fails; the last accepted point is kept in any case.
-/

namespace Minima

inductive LineSearch (α : Type) where
  | backtracking (search : Backtracking α)
  | bracketing (search : Bracketing α)

def LineSearch.search {σ α : Type} [Scalar α] :
    LineSearch α → Problem σ α → Nat → Vec α → α → Work σ α (SearchResult α)
  | backtracking b => b.search
  | bracketing b => b.search

structure DescentBy (κ α : Type) where
  strategy : κ
  search : LineSearch α

abbrev Descent (α : Type) := DescentBy (Strategy α) α

namespace Descent

variable {κ σ α : Type} [Scalar α]

def steepest : Descent α := ⟨.steepest, .backtracking .usual⟩

def conjugateGradient : Descent α := ⟨.conjugate .fletcherReeves none, .bracketing .usual⟩

def quasiNewton : Descent α := ⟨.quasiNewtonUnset, .backtracking .usual⟩

/-- An accepted point and how to go on from it. -/
structure Stand (α : Type) where
  visited : Visited α
  value : α
  direction : Vec α
  step : α

def relativeChange (value previous : α) : α :=
  2.0 * Scalar.abs (value - previous)
    / (Scalar.abs value + Scalar.abs previous + Scalar.epsilon)

variable [Directions κ α]

def resetStrategy (dimension : Nat) : Run σ (DescentBy κ α) α Unit :=
  Run.remember fun d => { d with strategy := Directions.reset dimension d.strategy }

/-- The next direction.  One that does not descend is replaced by the negative
gradient, and the strategy starts anew. -/
def nextDirection (stand : Stand α) (current : Visited α) : Run σ (DescentBy κ α) α (Vec α) := do
  let (direction, strategy) ← attempt
    (Directions.next (← get).memory.strategy stand.visited current stand.direction)
  Run.remember fun d => { d with strategy }
  if 0 ≤ (← attempt (Vec.laneDot? current.gradient direction)) then
    resetStrategy current.x.length
    return Vec.neg current.gradient
  else return direction

def searchFrom (P : Problem σ α) (stand : Stand α) :
    Run σ (DescentBy κ α) α (SearchResult α) := do
  let s ← get
  let step ← attempt
    (Directions.initialStep s.memory.strategy stand.step stand.visited.gradient stand.direction)
  Run.work (s.memory.search.search P s.rule.maxIterations stand.direction step)

/-- One search from a stand and what follows it: the next stand, or none where the run ends. -/
def advance (P : Problem σ α) (iteration : Nat) (stand : Stand α) :
    Run σ (DescentBy κ α) α (Option (Stand α)) := do
  let found ← searchFrom P stand
  if !found.succeeded then
    if !(← Run.outcome).isTerminal then Run.mark .unknown
    let last := stand.visited
    Run.work (Problem.settleWithGradient last.x stand.value last.gradientNormSq)
    return none
  else
    let current : Visited α := ⟨found.x, found.gradient, found.gradientNormSq⟩
    let direction ← nextDirection stand current
    Run.work (Problem.settleWithGradient found.x found.value found.gradientNormSq)
    let small := decide
      (relativeChange found.value stand.value < (← get).rule.functionEpsilon)
    let stop ← if small then pure true else Run.check (·.checkMaxIterations iteration)
    if stop then
      Run.mark .stationaryValue
      let _ ← Run.check (·.checkMaxIterations iteration)
      return none
    else return some ⟨current, found.value, direction, found.step⟩

def descend (P : Problem σ α) :
    (more : Nat) → (iteration : Nat) → Stand α → Run σ (DescentBy κ α) α Outcome
  | more, iteration, stand => do
      let some next ← advance P iteration stand | Run.outcome
      match more with
      | 0 => Run.outcome
      | more + 1 => descend P more (iteration + 1) next

def start (P : Problem σ α) : Run σ (DescentBy κ α) α (Stand α) := do
  Run.reset
  let x := (← get).progress.point
  if !P.region.contains x then throw (.error .infeasibleStart)
  let (value, gradient) ← Run.work (P.valueAndGradient x)
  let gradientNormSq := Vec.normSq gradient
  Run.work (Problem.settleWithGradient x value gradientNormSq)
  resetStrategy x.length
  return ⟨⟨x, gradient, gradientNormSq⟩, value, Vec.neg gradient, 1⟩

def minimize (P : Problem σ α) : Run σ (DescentBy κ α) α Outcome := do
  let stand ← start P
  descend P (← get).rule.maxIterations 0 stand

end Descent

end Minima
