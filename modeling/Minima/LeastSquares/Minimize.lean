import Minima.LeastSquares.Differences
import Minima.LeastSquares.Solver
import Minima.LeastSquares.TrustRegion

/-!
# The least squares run

`Solver.minimize` walks a target to a point where the sum of its squared
residuals is small.  Each pass solves the linearised problem within a trust
region, moves the target there and compares the reduction of the objective with
the predicted one.  A step that reduces it enough is accepted and the target is
linearised anew; any other is undone.  The radius follows the quality of the
prediction.

A stage of the run either ends it with a reason or hands on to the next.
-/

namespace Minima

structure Report (α : Type) where
  termination : Termination
  evaluations : Nat
  /-- Half of the sum of squares; nothing if no residuals could be computed. -/
  objective : Option α

namespace Solver

structure Account (τ α : Type) where
  target : τ
  evaluations : Nat
  objective : Option α

abbrev Stage (τ α : Type) := ExceptT Termination (StateM (Account τ α))

structure Iterate (α : Type) where
  x : Vec α
  residuals : Vec α
  norm : α

structure Linearisation (α : Type) where
  system : DampedSystem α
  cosine : α

structure Trust (α : Type) where
  scaling : Vec α
  radius : α
  damping : α
  /-- The length of the scaled point. -/
  length : α
  /-- Whether no step has been accepted yet. -/
  first : Bool

variable {τ α : Type} [Scalar α]

def call {β : Type} (act : StateM τ β) : Stage τ α β := fun a =>
  let (b, target) := act a.target
  (.ok b, { a with target })

def halfSquare (norm : α) : α := Scalar.square norm * 0.5

def evaluate (norm : Norm) (t : Target τ α) : Stage τ α (Vec α) := do
  modify fun a => { a with evaluations := a.evaluations + 1 }
  match ← call t.residuals with
  | none => throw (.user .residuals)
  | some r =>
      modify fun a => { a with objective := some (halfSquare (norm.length r)) }
      return r

def scaledLength (s : Solver α) (norm : Norm) (scaling x : Vec α) : α :=
  norm.length (if s.scaled then Vec.mul scaling x else x)

/-- The Jacobian at the current point.  A difference approximation counts with
all of its evaluations, wherever it breaks off. -/
def jacobian (s : Solver α) (t : Target τ α) (it : Iterate α) :
    Stage τ α (Option (DenseMatrix α)) :=
  match s.epsfcn with
  | none => call t.jacobian
  | some epsfcn => do
      modify fun a => { a with evaluations := a.evaluations + it.x.length }
      call (t.forwardJacobian it.x it.residuals epsfcn)

def linearise (s : Solver α) (norm : Norm) (t : Target τ α) (it : Iterate α) :
    Stage τ α (Linearisation α) := do
  let some a ← s.jacobian t it | throw (.user .jacobian)
  if a.rows ≠ it.residuals.length ∨ a.width ≠ it.x.length then
    throw (.wrongDimensions .jacobian)
  if !a.isFinite then throw (.numerical .jacobian)
  let system := DampedSystem.ofFactorization (Factorization.factor norm true a) it.residuals
  let some cosine := system.maxCosine it.norm | throw (.numerical .jacobian)
  if cosine ≤ s.gtol then throw .orthogonal
  return ⟨system, cosine⟩

def start (norm : Norm) (t : Target τ α) : Stage τ α (Iterate α) := do
  let x := t.params (← get).target
  let residuals ← evaluate norm t
  let length := norm.length residuals
  if x.length = 0 then throw .noParameters
  if residuals.length < x.length then throw .notEnoughResiduals
  if !Scalar.isFinite length then throw (.numerical .residualsNorm)
  if length ≤ Scalar.smallest then throw .residualsZero
  return ⟨x, residuals, length⟩

/-- The trust region of the first linearisation.  Coordinates are scaled by the
lengths of their columns. -/
def firstTrust (s : Solver α) (norm : Norm) (it : Iterate α) (lin : Linearisation α) :
    Stage τ α (Trust α) := do
  let scaling :=
    if s.scaled then
      lin.system.columnNorms.map fun c => if Scalar.isZero c then 1 else c
    else List.replicate it.x.length 1
  let length := s.scaledLength norm scaling it.x
  if !Scalar.isFinite length then throw (.numerical .parameters)
  let radius := if Scalar.isZero length then s.stepbound else s.stepbound * length
  return ⟨scaling, radius, 0, length, true⟩

/-- The trust region at a further linearisation.  No scale ever shrinks. -/
def nextTrust (s : Solver α) (trust : Trust α) (lin : Linearisation α) : Trust α :=
  if s.scaled then
    { trust with scaling := List.zipWith Scalar.max lin.system.columnNorms trust.scaling }
  else trust

structure Comparison (α : Type) where
  actual : α
  predicted : α
  ratio : α
  /-- The derivative of the objective along the step. -/
  slope : α

def compare (norm : Norm) (system : DampedSystem α) (step : TrustStep α) (before after : α) :
    Stage τ α (Comparison α) := do
  let actual := if after * 0.1 < before then 1 - Scalar.square (after / before) else -1
  let linear := Scalar.square (system.imageLength norm step.step / before)
  let damped := Scalar.square (Scalar.sqrt step.damping * step.length / before)
  if !Scalar.isFinite linear || !Scalar.isFinite damped then
    throw (.numerical .predictedReduction)
  let predicted := linear + damped / 0.5
  let ratio := if Scalar.isZero predicted then 0 else actual / predicted
  return ⟨actual, predicted, ratio, -(linear + damped)⟩

def adapt (c : Comparison α) (radius : α) (step : TrustStep α) (before after : α) : α × α :=
  if c.ratio ≤ 0.25 then
    let shrink :=
      if !Scalar.isNegative c.actual then 0.5
      else 0.5 * c.slope / (c.slope + 0.5 * c.actual)
    let shrink := if before ≤ after * 0.1 ∨ shrink < 0.1 then 0.1 else shrink
    (shrink * Scalar.min radius (step.length / 0.1), step.damping / shrink)
  else if Scalar.isZero step.damping ∨ 0.75 ≤ c.ratio then
    (step.length / 0.5, step.damping * 0.5)
  else (radius, step.damping)

def Comparison.within (c : Comparison α) (tol : α) : Bool :=
  decide (Scalar.abs c.actual ≤ tol) && decide (c.predicted ≤ tol) && decide (0.5 * c.ratio ≤ 1)

/-- The tests after a trial, convergence before loss of precision before patience. -/
def checkTrial (s : Solver α) (c : Comparison α) (cosine norm radius length : α) :
    Stage τ α Unit := do
  if norm ≤ Scalar.smallest then throw .residualsZero
  let ftol := c.within s.ftol
  let xtol := decide (radius ≤ s.xtol * length)
  if ftol || xtol then throw (.converged ftol xtol)
  if cosine ≤ Scalar.epsilon then throw (.noImprovementPossible .gtol)
  if radius ≤ Scalar.epsilon * length then throw (.noImprovementPossible .xtol)
  if c.within Scalar.epsilon then throw (.noImprovementPossible .ftol)
  if s.patience ≤ (← get).evaluations then throw .lostPatience

structure Position (α : Type) where
  iterate : Iterate α
  trust : Trust α
  linearisation : Linearisation α

structure Proposal (α : Type) where
  point : Iterate α
  comparison : Comparison α
  trust : Trust α
  system : DampedSystem α

def Proposal.accepted (p : Proposal α) : Bool := decide (1e-4 ≤ p.comparison.ratio)

def propose (norm : Norm) (t : Target τ α) (here : Position α) : Stage τ α (Proposal α) := do
  let it := here.iterate
  let trust := here.trust
  let (step, system) :=
    trustStep norm here.linearisation.system trust.scaling trust.radius trust.damping
  if !Scalar.isFinite step.length then throw (.numerical .subproblem)
  let radius := if trust.first then Scalar.min trust.radius step.length else trust.radius
  let x := Vec.sub it.x step.step
  call (t.setParams x)
  let residuals ← evaluate norm t
  if residuals.length ≠ it.residuals.length then throw (.wrongDimensions .residuals)
  let after := norm.length residuals
  let c ← compare norm system step it.norm after
  let (radius, damping) := adapt c radius step it.norm after
  return ⟨⟨x, residuals, after⟩, c, { trust with radius, damping }, system⟩

def accept (s : Solver α) (norm : Norm) (cosine : α) (p : Proposal α) : Stage τ α (Trust α) := do
  let length := s.scaledLength norm p.trust.scaling p.point.x
  if !Scalar.isFinite length then throw (.numerical .parameters)
  s.checkTrial p.comparison cosine p.point.norm p.trust.radius length
  return { p.trust with length, first := false }

def reject (s : Solver α) (t : Target τ α) (here : Position α) (p : Proposal α) :
    Stage τ α Unit := do
  call (t.setParams here.iterate.x)
  modify fun a => { a with objective := some (halfSquare here.iterate.norm) }
  s.checkTrial p.comparison here.linearisation.cosine here.iterate.norm p.trust.radius
    p.trust.length

def pass (s : Solver α) (norm : Norm) (t : Target τ α) (here : Position α) :
    Stage τ α (Position α) := do
  let p ← propose norm t here
  if p.accepted then
    let trust ← s.accept norm here.linearisation.cosine p
    let lin ← s.linearise norm t p.point
    return ⟨p.point, s.nextTrust trust lin, lin⟩
  else
    s.reject t here p
    return ⟨here.iterate, p.trust, { here.linearisation with system := p.system }⟩

/-- Passes until a stage ends the run.  Each pass makes an evaluation, so the
patience bounds their number. -/
def passes (s : Solver α) (norm : Norm) (t : Target τ α) :
    Nat → Position α → Stage τ α Termination
  | 0, _ => return .lostPatience
  | more + 1, here => do s.passes norm t more (← s.pass norm t here)

def setUp (s : Solver α) (norm : Norm) (t : Target τ α) : Stage τ α (Position α) := do
  let it ← start norm t
  let lin ← s.linearise norm t it
  let trust ← s.firstTrust norm it lin
  return ⟨it, trust, lin⟩

def run (s : Solver α) (norm : Norm) (t : Target τ α) : Stage τ α Termination := do
  s.passes norm t s.patience (← s.setUp norm t)

/-- Runs the solver on a target.  The target is left at the last point that it
was moved to. -/
def minimize (s : Solver α) (norm : Norm) (t : Target τ α) : StateM τ (Report α) := fun target =>
  let (result, a) := s.run norm t ⟨target, 0, none⟩
  let termination := match result with
    | .ok reason => reason
    | .error reason => reason
  (⟨termination, a.evaluations, a.objective⟩, a.target)

end Solver

end Minima
