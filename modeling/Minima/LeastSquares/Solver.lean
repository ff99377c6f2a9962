import Minima.Failure
import Minima.Scalar

/-!
# Settings of the least squares solver
-/

namespace Minima

structure Solver (α : Type) where
  /-- The relative reduction of the objective that counts as convergence. -/
  ftol : α
  /-- The relative change of the parameters that counts as convergence. -/
  xtol : α
  /-- The cosine between residuals and Jacobian that counts as orthogonality. -/
  gtol : α
  /-- The first radius, relative to the length of the scaled start. -/
  stepbound : α
  /-- The number of evaluations after which the run is given up. -/
  patience : Nat
  scaled : Bool
  /-- With a value the Jacobian comes from forward differences, and this is the
  relative error of the residuals. -/
  epsfcn : Option α
  patience_pos : 0 < patience

namespace Solver

variable {α : Type} [Scalar α]

def new : Solver α :=
  let tol := Scalar.epsilon * 30.0
  ⟨tol, tol, tol, 100.0, 100, true, none, by decide⟩

def classic : Solver α := { new with xtol := 1e-8, gtol := 1e-8, epsfcn := some 1e-8 }

def unsigned (setting : SolverSetting) (x : α) : Checked α Unit :=
  if Scalar.isNegative x then .error (.refused (.solver setting)) else .ok ()

def withFtol (s : Solver α) (x : α) : Checked α (Solver α) := do
  unsigned .ftol x
  return { s with ftol := x }

def withXtol (s : Solver α) (x : α) : Checked α (Solver α) := do
  unsigned .xtol x
  return { s with xtol := x }

def withGtol (s : Solver α) (x : α) : Checked α (Solver α) := do
  unsigned .gtol x
  return { s with gtol := x }

def withTol (s : Solver α) (x : α) : Checked α (Solver α) := do
  unsigned .tol x
  return { s with ftol := x, xtol := x, gtol := x }

def withStepbound (s : Solver α) (x : α) : Checked α (Solver α) := do
  unsigned .stepbound x
  return { s with stepbound := x }

def withPatience (s : Solver α) (n : Nat) : Checked α (Solver α) :=
  if positive : 0 < n then .ok { s with patience := n, patience_pos := positive }
  else .error (.refused (.solver .patience))

def withScaling (s : Solver α) (scaled : Bool) : Solver α := { s with scaled }

def withEpsfcn (s : Solver α) (x : α) : Checked α (Solver α) := do
  unsigned .epsfcn x
  return { s with epsfcn := some x }

end Solver

end Minima
