import Minima.Termination

/-!
# What can go wrong

An `Error` is a failure that a caller is told about.  A `Refusal` rejects a
setting outside its documented range.  A `Failure` is either of these, or
vectors that do not fit together.
-/

namespace Minima

inductive ArgumentError (α : Type) where
  | stationaryBudgetTooSmall (budget : Nat)
  | stationaryBudgetTooLarge (budget iterations : Nat)
  | crossedBounds (low high : α)
  | boundLengths (low high : Nat)
  | maskLength (mask parameters : Nat)
  | allFixed
  | fullLength (given expected : Nat)
  | freeLength (given expected : Nat)
  | rightHandSide (rows columns length : Nat)
  | diagonal (rows columns length : Nat)
  | noVariables
  | tooFewResiduals (residuals unknowns : Nat)
  | negativeTolerance
  | noEvaluations
  | noParameters
  | boxLengths (lower upper parameters : Nat)
  | infiniteBox
  | memberLength (given expected : Nat)
  | stepWeight (weight : α)
  | crossoverProbability (probability : α)
  | emptyPopulation
  | emptyInitialPopulation
  | startLength (given expected : Nat)
  deriving Repr

inductive Error (α : Type) where
  | invalidArgument (cause : ArgumentError α)
  /-- No step along a direction was feasible, however short. -/
  | infeasibleStep (halvings : Nat)
  | infeasibleStart
  | costFunction (reason : String)
  | userAbort
  /-- The least squares run ended for a reason that is no result. -/
  | leastSquares (reason : Termination)
  deriving Repr

inductive SolverSetting where
  | ftol
  | xtol
  | gtol
  | tol
  | stepbound
  | patience
  | epsfcn
  deriving DecidableEq, Repr

inductive Refusal (α : Type) where
  | sufficientDecrease (alpha : α)
  | backtracking (beta : α)
  | bracketing (alpha beta : α)
  | extrapolation (factor : α)
  | solver (setting : SolverSetting)
  deriving Repr

inductive Failure (α : Type) where
  | sizeMismatch
  | refused (refusal : Refusal α)
  | error (error : Error α)
  deriving Repr

def Failure.invalid {α : Type} (cause : ArgumentError α) : Failure α :=
  .error (.invalidArgument cause)

abbrev Checked (α β : Type) := Except (Failure α) β

def attempt {m : Type → Type} [Monad m] {α β : Type} (b : Checked α β) :
    ExceptT (Failure α) m β :=
  ExceptT.mk (pure b)

def requireSame {α : Type} (m n : Nat) : Checked α Unit :=
  if m = n then .ok () else .error .sizeMismatch

end Minima
