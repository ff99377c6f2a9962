import Minima.Random
import Minima.Simplex

/-!
# Simulated annealing

The moves of a simplex with thermal noise.  The values of the vertices are
raised by noise before they are ranked, and the value of a trial point is
lowered by noise before it is compared, so that a hot simplex can climb.  The
temperature falls by a schedule.  The result is the best point ever evaluated,
by its value without noise.

Iterations count the points that moves and shrinks evaluate.
-/

namespace Minima

inductive Cooling (α : Type) where
  /-- The temperature is multiplied by `1 - epsilon` after every `m` iterations. -/
  | constantFactor (epsilon : α) (m : Nat)
  /-- The first temperature times a power of the part of the budget that is left. -/
  | constantBudget (budget : Nat) (alpha : α)

namespace Cooling

variable {α : Type} [Scalar α]

def cool (c : Cooling α) (initial temperature : α) (iteration : Nat) : α :=
  match c with
  | constantFactor epsilon _ => temperature * (1 - epsilon)
  | constantBudget budget alpha =>
      if iteration ≤ budget then
        initial * Scalar.pow (1 - (iteration : α) / (budget : α)) alpha
      else 0

def span : Cooling α → Nat
  | constantFactor _ m => m
  | constantBudget _ _ => 1

end Cooling

structure Annealing (ρ α : Type) where
  source : ρ
  lambda : α
  temperature : α
  cooling : Cooling α

namespace Annealing

structure State (α : Type) where
  vertices : List (Vec α)
  values : List α
  sum : Vec α
  best : Vec α
  bestValue : α

structure NoisyRanking (α : Type) where
  lowest : Nat
  highest : Nat
  lowestNoisy : α
  highestNoisy : α
  nextHighestNoisy : α

variable {ρ σ α : Type} [Scalar α]

def NoisyRanking.add (r : NoisyRanking α) (i : Nat) (noisy : α) : NoisyRanking α :=
  let r := if noisy ≤ r.lowestNoisy then { r with lowest := i, lowestNoisy := noisy } else r
  if r.highestNoisy < noisy then
    { r with nextHighestNoisy := r.highestNoisy, highest := i, highestNoisy := noisy }
  else if r.nextHighestNoisy < noisy then { r with nextHighestNoisy := noisy }
  else r

def NoisyRanking.of (noisy : List α) : NoisyRanking α :=
  let first := noisy.getD 0 0
  let second := noisy.getD 1 0
  let start : NoisyRanking α :=
    if second < first then ⟨1, 0, second, first, second⟩ else ⟨0, 1, first, second, first⟩
  (noisy.zipIdx.drop 2).foldl (fun r (a, i) => r.add i a) start

def evaluate (P : Problem σ α) (x : Vec α) : Run σ (Annealing ρ α) α α := do
  if P.region.contains x then
    let value ← Run.work (P.value x)
    return if Scalar.isUndefined value then Scalar.largest else value
  else return Scalar.largest

def State.record (s : State α) (x : Vec α) (value : α) : State α :=
  if value < Scalar.largest ∧ value ≤ s.bestValue then { s with best := x, bestValue := value }
  else s

variable [RandomSource ρ]

def draw {β : Type} (d : StateM ρ β) : Run σ (Annealing ρ α) α β :=
  Run.draw (·.source) (fun source a => { a with source }) d

def noise (cold : α) : Run σ (Annealing ρ α) α α := do
  return cold * Scalar.ln (← draw Random.uniform)

/-- Tries to move the highest vertex by `factor`.  The answer is the value of
the trial point lowered by noise. -/
def tryMove (P : Problem σ α) (cold : α) (r : NoisyRanking α) (factor : α) (s : State α) :
    Run σ (Annealing ρ α) α (α × State α) := do
  let v := s.vertices.getD r.highest []
  let trial := Simplex.trialPoint s.sum.length s.sum v factor
  let value ← evaluate P trial
  let s := s.record trial value
  let noisy := value - (← noise cold)
  if noisy < r.highestNoisy then
    return (noisy, { s with
      values := s.values.set r.highest value
      sum := Vec.add s.sum (Vec.sub trial v)
      vertices := s.vertices.set r.highest trial })
  else return (noisy, s)

def shrink (P : Problem σ α) (lowest : Nat) : List Nat → State α → Run σ (Annealing ρ α) α (State α)
  | [], s => return s
  | i :: rest, s => do
      if i = lowest then shrink P lowest rest s
      else
        let x := Vec.scale 0.5 (Vec.add (s.vertices.getD i []) (s.vertices.getD lowest []))
        let value ← evaluate P x
        let s := s.record x value
        shrink P lowest rest
          { s with vertices := s.vertices.set i x, values := s.values.set i value }

/-- The moves of one pass, and the number of points evaluated for them. -/
def moves (P : Problem σ α) (cold : α) (r : NoisyRanking α) (s : State α) :
    Run σ (Annealing ρ α) α (Nat × State α) := do
  let (reflected, s) ← tryMove P cold r (-1) s
  if reflected ≤ r.lowestNoisy then
    let (_, s) ← tryMove P cold r 2.0 s
    return (2, s)
  else if r.nextHighestNoisy ≤ reflected then
    let (contracted, s) ← tryMove P cold r 0.5 s
    if r.highestNoisy ≤ contracted then
      let s ← shrink P r.lowest (List.range s.vertices.length) s
      return (2 + (s.vertices.length - 1), s)
    else return (2, s)
  else return (1, s)

structure Clock (α : Type) where
  iteration : Nat
  since : Nat
  temperature : α

/-- The clock after some more iterations.  The temperature falls once the span
of the schedule is over. -/
def Clock.advance (c : Clock α) (a : Annealing ρ α) (spent : Nat) : Clock α :=
  let iteration := c.iteration + spent
  if c.since + a.cooling.span ≤ iteration then
    ⟨iteration, iteration, a.cooling.cool a.temperature c.temperature iteration⟩
  else { c with iteration }

def passes (P : Problem σ α) : (more : Nat) → Clock α → State α → Run σ (Annealing ρ α) α Outcome
  | 0, _, _ => Run.outcome
  | more + 1, clock, s => do
      let n := s.sum.length
      let s := { s with sum := Simplex.sumOf n s.vertices }
      let cold := -clock.temperature
      let r := NoisyRanking.of (← s.values.mapM fun value => do return value + (← noise cold))
      let still ← Run.check (·.checkStationaryPoint (Simplex.size n s.vertices) 0)
      let stop ← if still then pure true else Run.check (·.checkMaxIterations clock.iteration)
      if stop then
        Run.work (Problem.settle s.best s.bestValue)
        Run.outcome
      else
        let (spent, s) ← moves P cold r s
        passes P more (clock.advance (← get).memory spent) s

def minimize (P : Problem σ α) : Run σ (Annealing ρ α) α Outcome := do
  Run.reset
  let x := (← get).progress.point
  if x.isEmpty then throw (.invalid .noParameters)
  if !P.region.contains x then throw (.error .infeasibleStart)
  let a := (← get).memory
  let vertices ← attempt (Simplex.initialVertices P.region x a.lambda)
  let values ← vertices.mapM (evaluate P)
  let start : State α := ⟨vertices, values, Vec.zeros x.length, x, Scalar.largest⟩
  let s := (vertices.zip values).foldl (fun s (v, value) => s.record v value) start
  passes P ((← get).rule.maxIterations + 1) ⟨0, 0, a.temperature⟩ s

end Annealing

end Minima
