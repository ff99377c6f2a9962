import Minima.LeastSquares.Minimize
import Minima.Session

/-!
# Least squares as a method

The least squares solver on the components of an objective.  The tolerance for
the objective and the patience come from the stopping rule.  At an infeasible
point the target answers with the components of the start, so that the solver
turns back from it.  The first failure of the objective ends the run and is
what the method fails with.
-/

namespace Minima

structure LeastSquaresMethod (α : Type) where
  solver : Solver α
  norm : Norm

namespace LeastSquaresMethod

structure State (σ α : Type) where
  progress : Progress σ α
  params : Vec α
  /-- The components at the start. -/
  initial : Vec α
  failure : Option (Failure α)

variable {σ α : Type} [Scalar α]

/-- Runs work on the problem.  Only the first failure is kept. -/
def State.run {β : Type} (w : Work σ α β) : StateM (State σ α) (Option β) := fun s =>
  match w s.progress with
  | (.ok b, progress) => (some b, { s with progress })
  | (.error failure, progress) =>
      (none, { s with progress, failure := some (s.failure.getD failure) })

def target (P : Problem σ α) : Target (State σ α) α where
  setParams x := modify fun s => { s with params := x }
  params := State.params
  residuals := do
    let s ← get
    if P.region.contains s.params then State.run (P.values s.params) else return some s.initial
  jacobian := do
    State.run (Problem.uncounted (P.objective.jacobian (← get).params))

def configure (s : Solver α) (c : StoppingRule α) : Checked α (Solver α) := do
  if c.functionEpsilon < 0 then throw (.invalid .negativeTolerance)
  if c.maxIterations = 0 then throw (.invalid .noEvaluations)
  (← s.withFtol c.functionEpsilon).withPatience c.maxIterations

def hasResult (t : Termination) : Bool :=
  decide (0 < t.code) && t.code != 7 && t.code != 8

def prepare (P : Problem σ α) : Run σ (LeastSquaresMethod α) α (Solver α × State σ α) := do
  Run.reset
  let x := (← get).progress.point
  if !P.region.contains x then throw (.error .infeasibleStart)
  let initial ← Run.work (Problem.uncounted (P.objective.values x))
  if x.length = 0 then throw (.invalid .noVariables)
  if initial.length < x.length then throw (.invalid (.tooFewResiduals initial.length x.length))
  let s ← get
  let solver ← attempt (configure s.memory.solver s.rule)
  return (solver, ⟨s.progress, x, initial, none⟩)

def adopt (P : Problem σ α) (report : Report α) (x : Vec α) :
    Run σ (LeastSquaresMethod α) α Outcome := do
  if report.termination.code ≠ 6 then Run.mark .stationaryValue
  let _ ← Run.check (·.checkMaxIterations report.evaluations)
  let value ← Run.work (Problem.uncounted (P.objective.value x))
  Run.work (Problem.settle x value)
  Run.outcome

def minimize (P : Problem σ α) : Run σ (LeastSquaresMethod α) α Outcome := do
  let (solver, t) ← prepare P
  let (report, t) := solver.minimize (← get).memory.norm (target P) t
  modify fun s => { s with progress := t.progress }
  if let some failure := t.failure then throw failure
  if let .user _ := report.termination then throw (.error .userAbort)
  if !hasResult report.termination then throw (.error (.leastSquares report.termination))
  adopt P report t.params

end LeastSquaresMethod

end Minima
