import Minima.Evolution.Settings
import Minima.Random
import Minima.Session

/-!
# Differential evolution

A population lives in the box of the bounds.  Each generation makes a mutant
for every member from scaled differences of members, crosses it with the member
coordinate by coordinate, and evaluates the result.  The best member ever seen
is the result.  Members that cannot be evaluated are infinitely bad.
-/

namespace Minima

structure Candidate (α : Type) where
  values : Vec α
  cost : α

/-- Besides its settings and its source the method keeps what the last run has worked with: the
box, and the step weights and crossover probabilities, which adapt. -/
structure Evolution (ρ α : Type) where
  settings : Evolution.Settings α
  source : ρ
  lower : Vec α := []
  upper : Vec α := []
  weights : Vec α := []
  probabilities : Vec α := []
  bestEver : Option (Candidate α) := none

namespace Evolution

structure Setup (α : Type) where
  settings : Evolution.Settings α
  lower : Vec α
  upper : Vec α

structure State (α : Type) where
  population : List (Candidate α)
  best : Candidate α

variable {ρ σ α : Type} [Scalar α]

def new (settings : Settings α) (source : ρ) : Checked α (Evolution ρ α) := do
  settings.validate
  return { settings, source }

def box (e : Evolution ρ α) : Setup α := ⟨e.settings, e.lower, e.upper⟩

def evaluate (P : Problem σ α) (x : Vec α) : Run σ (Evolution ρ α) α (Candidate α) := fun s =>
  match Run.work (P.value x) s with
  | (.ok cost, s) => (.ok ⟨x, if Scalar.isFinite cost then cost else Scalar.infinity⟩, s)
  | (.error (.error _), s) => (.ok ⟨x, Scalar.infinity⟩, s)
  | (.error failure, s) => (.error failure, s)

def setup (region : Region α) (c : Settings α) (x : Vec α) : Checked α (Setup α) := do
  let upper ← c.upper.elim (region.upper x) .ok
  let lower ← c.lower.elim (region.lower x) .ok
  if upper.length ≠ x.length ∨ lower.length ≠ x.length then
    throw (.invalid (.boxLengths lower.length upper.length x.length))
  let finite (u l : α) := Scalar.isFinite u && Scalar.isFinite l && Scalar.isFinite (u - l)
  if (List.zipWith finite upper lower).all id then return ⟨c, lower, upper⟩
  else throw (.invalid .infiniteBox)

/-- The place of the cheapest member among those from `place` on and the one at
`best`, which has the given cost.  The first of equal costs wins. -/
def cheapest (best : Nat) (cost : α) (place : Nat) : List (Candidate α) → Nat
  | [] => best
  | c :: rest =>
      if c.cost < cost then cheapest place c.cost (place + 1) rest
      else cheapest best cost (place + 1) rest

def bestToFront : List (Candidate α) → List (Candidate α)
  | [] => []
  | first :: rest =>
      match cheapest 0 first.cost 1 rest with
      | 0 => first :: rest
      | k + 1 => (rest.getD k first) :: rest.set k first

def enter (P : Problem σ α) (n : Nat) (x : Vec α) : Run σ (Evolution ρ α) α (Candidate α) := do
  if x.length ≠ n then throw (.invalid (.memberLength x.length n))
  if !P.region.contains x then throw (.error .infeasibleStart)
  evaluate P x

variable [RandomSource ρ]

def draw {β : Type} (d : StateM ρ β) : Run σ (Evolution ρ α) α β :=
  Run.draw (·.source) (fun source e => { e with source }) d

def randomPoint (s : Setup α) : StateM ρ (Vec α) :=
  (s.lower.zip s.upper).mapM fun (l, u) => do return l + (u - l) * (← Random.uniform)

def randomMembers (P : Problem σ α) (s : Setup α) :
    Nat → Run σ (Evolution ρ α) α (List (Candidate α))
  | 0 => return []
  | n + 1 => do
      let c ← evaluate P (← draw (randomPoint s))
      return c :: (← randomMembers P s n)

def firstPopulation (P : Problem σ α) (s : Setup α) :
    Run σ (Evolution ρ α) α (List (Candidate α)) := do
  let x := (← get).progress.point
  match s.settings.initial with
  | some members => members.mapM (enter P x.length)
  | none => do
      if !P.region.contains x then throw (.error .infeasibleStart)
      let first ← evaluate P x
      return first :: (← randomMembers P s (s.settings.members - 1))

/-! ## Mutants -/

/-- Mutants, and members that stray coordinates are drawn back towards, one of
each for every member. -/
structure Mutants (α : Type) where
  mutants : List (Vec α)
  anchors : List (Vec α)

def dither (f : α) : StateM ρ α := do return (1 - f) * (← Random.uniform) + f

def shuffled (old : List (Vec α)) : StateM ρ (List (Vec α)) := do
  let members := old.toArray
  return (← Random.permutation old.length).map (members.getD · [])

def shuffledThrice (old : List (Vec α)) :
    StateM ρ (List (Vec α) × List (Vec α) × List (Vec α)) := do
  let a ← shuffled old
  let b ← shuffled old
  let c ← shuffled old
  return (a, b, c)

def zip3With {β : Type} (f : β → β → β → β) (a b c : List β) : List β :=
  List.zipWith (fun f c => f c) (List.zipWith f a b) c

def adaptWeights (weights : Vec α) : StateM ρ (Vec α) :=
  weights.mapM fun w => do
    if (← Random.uniform) < (0.1 : α) then return 0.1 + (← Random.uniform) * 0.9 else return w

def adaptProbabilities (c : Settings α) (probabilities : Vec α) : StateM ρ (Vec α) :=
  if c.adaptive then
    probabilities.mapM fun cr => do
      if (← Random.uniform) < (0.1 : α) then Random.uniform else return cr
  else pure probabilities

def mutate (c : Settings α) (old : List (Vec α)) (best : Vec α) (weights : Vec α) :
    StateM ρ (Mutants α × Vec α) := do
  let f := c.stepWeight
  let n := best.length
  match c.mutation with
  | .rand1Standard => do
      let (a, b, c) ← shuffledThrice old
      let mutant a b c := Vec.add c (Vec.scale f (Vec.sub a b))
      return (⟨zip3With mutant a b c, a⟩, weights)
  | .bestMemberWithJitter => do
      let a ← shuffled old
      let mutants ← (a.zip old).mapM fun (a, x) => do
        let jitter ← (List.range n).mapM fun _ => do return 0.0001 * (← Random.uniform) + f
        return Vec.add best (Vec.mul (Vec.sub a x) jitter)
      return (⟨mutants, old.map fun _ => best⟩, weights)
  | .currentToBest2Diffs => do
      let a ← shuffled old
      let b ← shuffled old
      let mutant x a b :=
        Vec.add (Vec.add x (Vec.scale f (Vec.sub best x))) (Vec.scale f (Vec.sub b a))
      return (⟨zip3With mutant old a b, a⟩, weights)
  | .rand1DiffWithPerVectorDither => do
      let (a, b, c) ← shuffledThrice old
      let ws ← (List.range n).mapM fun _ => dither f
      let mutant a b c := Vec.add c (Vec.mul (Vec.sub a b) ws)
      return (⟨zip3With mutant a b c, a⟩, weights)
  | .rand1DiffWithDither => do
      let (a, b, c) ← shuffledThrice old
      let w ← dither f
      let mutant a b c := Vec.add c (Vec.scale w (Vec.sub a b))
      return (⟨zip3With mutant a b c, a⟩, weights)
  | .eitherOrWithOptimalRecombination => do
      let (a, b, c) ← shuffledThrice old
      if (← Random.uniform) < (0.5 : α) then
        let mutant x a b := Vec.add x (Vec.scale f (Vec.sub a b))
        return (⟨zip3With mutant old a b, a⟩, weights)
      else
        let k := 0.5 * (f + 1)
        let move a b c := Vec.scale k (Vec.sub (Vec.add a b) (Vec.scale 2.0 c))
        return (⟨List.zipWith Vec.add old (zip3With move a b c), a⟩, weights)
  | .rand1SelfadaptiveWithRotation => do
      let a ← shuffled old
      let b ← shuffled old
      let weights ← adaptWeights weights
      let mutants ← ((a.zip b).zip weights).mapM fun ((a, b), w) => do
        if (← Random.uniform) < (0.1 : α) then Random.shuffle best
        else return Vec.add best (Vec.scale w (Vec.sub a b))
      return (⟨mutants, a⟩, weights)

/-! ## Generations -/

def cross : (mask : List Bool) → (mutant member : Vec α) → Vec α
  | m :: mask, a :: mutant, b :: member => (if m then a else b) :: cross mask mutant member
  | _, mutant, _ => mutant

/-- A coordinate beyond a bound is drawn anew between the bound and the anchor. -/
def bounceOff (bound anchor a : α) (beyond : Bool) : StateM ρ α := do
  if beyond then return bound + (← Random.uniform) * (anchor - bound) else return a

def bounce (lower upper anchor a : α) : StateM ρ α := do
  let a ← bounceOff upper anchor a (decide (upper < a))
  bounceOff lower anchor a (decide (a < lower))

def bounceAll : (lower upper anchor x : Vec α) → StateM ρ (Vec α)
  | l :: lower, u :: upper, m :: anchor, a :: x => do
      let a ← bounce l u m a
      return a :: (← bounceAll lower upper anchor x)
  | _, _, _, x => return x

def confine (s : Setup α) (anchor x : Vec α) : StateM ρ (Vec α) :=
  if s.settings.applyBounds then bounceAll s.lower s.upper anchor x else pure x

def survivor (c : Settings α) (old offspring : Candidate α) : Candidate α :=
  if c.greedy ∧ old.cost < offspring.cost then old else offspring

def select (P : Problem σ α) (s : Setup α) :
    List (Candidate α) → List (Vec α) → List (Vec α) → List (List Bool) →
      Run σ (Evolution ρ α) α (List (Candidate α))
  | old :: population, mutant :: mutants, anchor :: anchors, mask :: masks => do
      let x ← draw (confine s anchor (cross mask mutant old.values))
      let offspring ← evaluate P x
      return survivor s.settings old offspring :: (← select P s population mutants anchors masks)
  | _, _, _, _ => return []

/-- The crossover probabilities of the next generation, and for each member which coordinates
come from its mutant. -/
def drawMasks (c : Settings α) (population : List (Candidate α)) (probabilities : Vec α) :
    StateM ρ (Vec α × List (List Bool)) := do
  let crossover ← adaptProbabilities c probabilities
  let chances := crossover.map fun cr => c.crossover.mutationProbability cr crossover.length
  let masks ← population.mapM fun _ =>
    chances.mapM fun p => do return decide ((← Random.uniform) < p)
  return (crossover, masks)

def nextGeneration (P : Problem σ α) (s : Setup α) (state : State α) :
    Run σ (Evolution ρ α) α (State α) := do
  let c := s.settings
  let e := (← get).memory
  let (made, weights) ←
    draw (mutate c (state.population.map (·.values)) state.best.values e.weights)
  let (probabilities, masks) ← draw (drawMasks c state.population e.probabilities)
  Run.remember fun e => { e with weights, probabilities }
  let population ← select P s state.population made.mutants made.anchors masks
  return { state with population := bestToFront population }

def State.remember (s : State α) : State α :=
  match s.population with
  | c :: _ => if c.cost < s.best.cost then { s with best := c } else s
  | [] => s

def State.leadingCost (s : State α) : α :=
  match s.population with
  | c :: _ => c.cost
  | [] => s.best.cost

/-- One pass: the next generation, unless the budget is spent, and whether the run goes on. -/
def pass (P : Problem σ α) (s : Setup α) (generation : Nat) (state : State α) :
    Run σ (Evolution ρ α) α (State α × Bool) := do
  if ← Run.check (·.checkMaxIterations generation) then return (state, false)
  else
    let next := (← nextGeneration P s state).remember
    let still ← Run.check (·.checkStationaryValue state.leadingCost next.leadingCost)
    return (next, !still)

def generations (P : Problem σ α) (s : Setup α) :
    (more : Nat) → (generation : Nat) → State α → Run σ (Evolution ρ α) α (State α)
  | 0, _, state => return state
  | more + 1, generation, state => do
      let (state, continues) ← pass P s generation state
      if continues then generations P s more (generation + 1) state else return state

/-- The setup of a run and its first generation.  What an earlier run has stored of its box, its
weights and its probabilities is overwritten. -/
def start (P : Problem σ α) : Run σ (Evolution ρ α) α (Setup α × State α) := do
  Run.reset
  let session ← get
  let c := session.memory.settings
  let x := session.progress.point
  if x.isEmpty then throw (.invalid .noParameters)
  let made ← attempt (setup P.region c x)
  Run.remember fun e => { e with lower := made.lower, upper := made.upper }
  let s := (← get).memory.box
  let members ← firstPopulation P s
  Run.remember fun e => { e with
    weights := members.map fun _ => c.stepWeight
    probabilities := x.map fun _ => c.crossoverProbability }
  match bestToFront members with
  | [] => throw (.invalid .emptyPopulation)
  | first :: rest => return (s, ⟨first :: rest, first⟩)

def minimize (P : Problem σ α) : Run σ (Evolution ρ α) α Outcome := do
  let (s, first) ← start P
  let state ← generations P s ((← get).rule.maxIterations + 1) 0 first
  Run.work (Problem.settle state.best.values state.best.cost)
  Run.remember fun e => { e with bestEver := some state.best }
  Run.outcome

end Evolution

end Minima
