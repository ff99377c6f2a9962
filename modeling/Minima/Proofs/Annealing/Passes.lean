import Minima.Annealing

/-!
# Passes of simulated annealing

A run lays out its simplex and goes on by passes.  One pass ranks the vertices by their noisy
values, asks whether the run ends, and makes its moves.
-/

namespace Minima.Annealing

variable {ρ σ α : Type} [Scalar α] [RandomSource ρ] {P : Problem σ α}

def start (P : Problem σ α) : Run σ (Annealing ρ α) α (Clock α × State α) := do
  Run.reset
  let x := (← get).progress.point
  if x.isEmpty then throw (.invalid .noParameters)
  if !P.region.contains x then throw (.error .infeasibleStart)
  let a := (← get).memory
  let vertices ← attempt (Simplex.initialVertices P.region x a.lambda)
  let values ← vertices.mapM (evaluate P)
  let first : State α := ⟨vertices, values, Vec.zeros x.length, x, Scalar.largest⟩
  return (⟨0, 0, a.temperature⟩,
    (vertices.zip values).foldl (fun s (v, value) => s.record v value) first)

theorem minimize_eq : minimize (ρ := ρ) P = (do
    let (clock, state) ← start P
    passes P ((← get).rule.maxIterations + 1) clock state) := by
  simp only [minimize, start, bind_assoc]
  refine bind_congr fun _ => bind_congr fun s => ?_
  split
  · rfl
  split
  · rfl
  · simp only [bind_assoc, pure_bind]

def rank (cold : α) (values : Vec α) : Run σ (Annealing ρ α) α (NoisyRanking α) := do
  return .of (← values.mapM fun value => do return value + (← noise cold))

def finished (iteration : Nat) (size : α) : Run σ (Annealing ρ α) α Bool := do
  if ← Run.check (·.checkStationaryPoint size 0) then return true
  else Run.check (·.checkMaxIterations iteration)

def pass (P : Problem σ α) (clock : Clock α) (s : State α) :
    Run σ (Annealing ρ α) α (Option (Clock α × State α)) := do
  let cold := -clock.temperature
  let r ← rank cold s.values
  if ← finished clock.iteration (Simplex.size s.sum.length s.vertices) then
    Run.work (Problem.settle s.best s.bestValue)
    return none
  else
    let (spent, next) ← moves P cold r { s with sum := Simplex.sumOf s.sum.length s.vertices }
    return some (clock.advance (← get).memory spent, next)

theorem passes_succ (more : Nat) (clock : Clock α) (s : State α) :
    passes (ρ := ρ) P (more + 1) clock s =
      pass P clock s >>= fun
        | none => Run.outcome
        | some (clock, s) => passes P more clock s := by
  simp only [passes, pass, rank, finished, bind_assoc, pure_bind]
  refine bind_congr fun noisy => ?_
  refine bind_congr fun still => ?_
  cases still with
  | true => simp only [if_true, pure_bind, bind_assoc]
  | false =>
      simp only [Bool.false_eq_true, if_false]
      refine bind_congr fun stops => ?_
      cases stops with
      | true => simp only [if_true, pure_bind, bind_assoc]
      | false => simp only [Bool.false_eq_true, if_false, pure_bind, bind_assoc]

/-- The clocks and states with which the passes of a run from `origin` begin. -/
inductive Reaches (P : Problem σ α) (origin : Session σ (Annealing ρ α) α) :
    Clock α → State α → Session σ (Annealing ρ α) α → Prop
  | start {clock : Clock α} {state : State α} {s : Session σ (Annealing ρ α) α} :
      start P origin = (.ok (clock, state), s) → Reaches P origin clock state s
  | pass {clock next : Clock α} {state state' : State α} {s s' : Session σ (Annealing ρ α) α} :
      Reaches P origin clock state s → pass P clock state s = (.ok (some (next, state')), s') →
        Reaches P origin next state' s'

end Minima.Annealing
