import Minima.Session

/-!
# Minimisation with a simplex

The method moves a simplex of one more vertices than there are parameters.  The
highest vertex is reflected through the centroid of the others, and the move is
expanded or contracted depending on how well the reflection did.  If nothing
helps, the simplex shrinks towards its lowest vertex.  A move that leaves the
region is halved until it does not; one that would have to become negligible is
not made, and ends the run.
-/

namespace Minima

structure Simplex (α : Type) where
  lambda : α
  vertices : List (Vec α)
  values : List α
  sum : Vec α

namespace Simplex

variable {σ α : Type} [Scalar α]

def new (lambda : α) : Simplex α := ⟨lambda, [], [], []⟩

def sumOf (n : Nat) (vertices : List (Vec α)) : Vec α := vertices.foldl Vec.add (Vec.zeros n)

def size (n : Nat) (vertices : List (Vec α)) : α :=
  let count : α := (vertices.length : α)
  let center := Vec.divide (sumOf n vertices) count
  Vec.sum (vertices.map fun v => Scalar.sqrt (Vec.normSq (Vec.sub v center))) / count

def initialVertices (region : Region α) (x : Vec α) (lambda : α) : Checked α (List (Vec α)) := do
  let others ← (List.range x.length).mapM fun i =>
    (·.2) <$> region.move x (Vec.unit x.length i) lambda
  return x :: others

/-- The vertex `v` moved by `factor` along the line through the centroid of the
`n` other vertices. -/
def trialPoint (n : Nat) (sum v : Vec α) (factor : α) : Vec α :=
  let toward := (1 - factor) / (n : α)
  Vec.sub (Vec.scale toward sum) (Vec.scale (toward - factor) v)

/-- How often a factor of at most two is halved before it is negligible. -/
def maxHalvings : Nat := 53

/-- The first feasible trial point for the factor, half of it, and so on, with
its factor; none once the next factor would be negligible. -/
def reach (contains : Vec α → Bool) (n : Nat) (sum v : Vec α) :
    (halvings : Nat) → (factor : α) → Option (Vec α × α)
  | 0, _ => none
  | halvings + 1, factor =>
      let trial := trialPoint n sum v factor
      if Scalar.abs (factor * 0.5) ≤ Scalar.epsilon then none
      else if contains trial then some (trial, factor)
      else reach contains n sum v halvings (factor * 0.5)

structure Ranking where
  lowest : Nat
  highest : Nat
  nextHighest : Nat

def Ranking.addHigh (values : List α) (r : Ranking) (i : Nat) : Ranking :=
  let value := values.getD i 0
  if values.getD r.highest 0 < value then { r with nextHighest := r.highest, highest := i }
  else if values.getD r.nextHighest 0 < value ∧ i ≠ r.highest then { r with nextHighest := i }
  else r

def Ranking.addLow (values : List α) (r : Ranking) (i : Nat) : Ranking :=
  if values.getD i 0 < values.getD r.lowest 0 then { r with lowest := i } else r

def Ranking.add (values : List α) (r : Ranking) (i : Nat) : Ranking :=
  (r.addHigh values i).addLow values i

def ranking (values : List α) : Ranking :=
  let start : Ranking := if values.getD 0 0 < values.getD 1 0 then ⟨0, 1, 0⟩ else ⟨0, 0, 1⟩
  (List.range' 1 (values.length - 1)).foldl (Ranking.add values) start

structure Move (α : Type) where
  value : α
  factor : α

def replace (s : Simplex α) (i : Nat) (x : Vec α) (value : α) : Simplex α :=
  { s with
    values := s.values.set i value
    sum := Vec.add s.sum (Vec.sub x (s.vertices.getD i []))
    vertices := s.vertices.set i x }

/-- Tries to move the vertex at `highest` by `factor`, or less where the region
asks for it.  The trial point takes its place if it is better.  There is no
result if there is no room. -/
def extrapolate (P : Problem σ α) (highest : Nat) (factor : α) :
    Run σ (Simplex α) α (Option (Move α)) := do
  let s := (← get).memory
  match reach P.region.contains (s.values.length - 1) s.sum (s.vertices.getD highest [])
      maxHalvings factor with
  | none => return none
  | some (trial, factor) => do
      let value ← Run.work (P.value trial)
      if value < s.values.getD highest 0 then
        Run.remember fun s => s.replace highest trial value
      return some ⟨value, factor⟩

def shrinkVertex (P : Problem σ α) (lowest i : Nat) : Run σ (Simplex α) α Unit := do
  if i ≠ lowest then
    let s := (← get).memory
    let x := Vec.scale 0.5 (Vec.add (s.vertices.getD i []) (s.vertices.getD lowest []))
    Run.remember fun s => { s with vertices := s.vertices.set i x }
    let value ← Run.work (P.value x)
    Run.remember fun s => { s with values := s.values.set i value }

def shrink (P : Problem σ α) (lowest : Nat) : Run σ (Simplex α) α Unit := do
  (List.range (← get).memory.vertices.length).forM (shrinkVertex P lowest)

/-- Contracts, and shrinks if the contraction is not better than the vertex.  The answer is
whether there was room to contract. -/
def contract (P : Problem σ α) (r : Ranking) : Run σ (Simplex α) α Bool := do
  let value := (← get).memory.values.getD r.highest 0
  let some contracted ← extrapolate P r.highest 0.5 | return false
  if value ≤ contracted.value then shrink P r.lowest
  return true

def moves (P : Problem σ α) (r : Ranking) : Run σ (Simplex α) α Bool := do
  let some reflected ← extrapolate P r.highest (-1) | return false
  let values := (← get).memory.values
  if reflected.value ≤ values.getD r.lowest 0 ∧ Scalar.same reflected.factor (-1) then
    return (← extrapolate P r.highest 2.0).isSome
  else if values.getD r.nextHighest 0 ≤ reflected.value then contract P r
  else return true

def settle (i : Nat) : Run σ (Simplex α) α Unit := do
  let s := (← get).memory
  Run.work (Problem.settle (s.vertices.getD i []) (s.values.getD i 0))

def finished (n iteration : Nat) : Run σ (Simplex α) α Bool := do
  let s ← get
  if size n s.memory.vertices < s.rule.rootEpsilon then return true
  else Run.check (·.checkMaxIterations iteration)

def finish (lowest iteration : Nat) : Run σ (Simplex α) α Outcome := do
  Run.mark .stationaryPoint
  let _ ← Run.check (·.checkMaxIterations iteration)
  settle lowest
  Run.outcome

def iterate (P : Problem σ α) (n : Nat) :
    (more : Nat) → (iteration : Nat) → Run σ (Simplex α) α Outcome
  | 0, _ => Run.outcome
  | more + 1, iteration => do
      Run.remember fun s => { s with sum := sumOf n s.vertices }
      let r := ranking (← get).memory.values
      if ← finished n iteration then finish r.lowest iteration
      else if ← moves P r then iterate P n more (iteration + 1)
      else
        Run.mark .stationaryValue
        settle r.lowest
        return .stationaryValue

def evaluateVertices (P : Problem σ α) : List (Vec α) → Run σ (Simplex α) α Unit
  | [] => return ()
  | x :: rest => do
      let value ← if P.region.contains x then Run.work (P.value x) else pure Scalar.largest
      Run.remember fun s => { s with values := s.values ++ [value] }
      evaluateVertices P rest

def checkedVertices (region : Region α) (x : Vec α) (lambda : α) : Checked α (List (Vec α)) := do
  if !region.contains x then throw (.error .infeasibleStart)
  if x.isEmpty then throw (.invalid .noParameters)
  initialVertices region x lambda

def start (P : Problem σ α) : Run σ (Simplex α) α (List (Vec α)) := do
  Run.reset
  let s ← get
  let vertices ← attempt (checkedVertices P.region s.progress.point s.memory.lambda)
  Run.remember fun s => { s with vertices, values := [] }
  return vertices

def proceed (P : Problem σ α) (vertices : List (Vec α)) : Run σ (Simplex α) α Outcome := do
  let n := (← get).progress.point.length
  evaluateVertices P vertices
  iterate P n (← get).rule.maxIterations 1

def minimize (P : Problem σ α) : Run σ (Simplex α) α Outcome := do
  proceed P (← start P)

end Simplex

end Minima
