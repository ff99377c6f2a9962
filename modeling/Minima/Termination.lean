/-!
# How a least squares run ends

Each reason has a code.  Positive codes are results, zero means that the run
could not start, negative codes that it was cut off.
-/

namespace Minima

inductive Subject where
  | residuals
  | jacobian
  | residualsNorm
  | parameters
  | subproblem
  | predictedReduction
  | ftol
  | xtol
  | gtol
  deriving DecidableEq, Repr

def Subject.name : Subject → String
  | residuals => "residuals"
  | jacobian => "jacobian"
  | residualsNorm => "residuals norm"
  | parameters => "parameters"
  | subproblem => "subproblem"
  | predictedReduction => "predicted reduction"
  | ftol => "ftol"
  | xtol => "xtol"
  | gtol => "gtol"

inductive Termination where
  /-- The target gave no residuals, or no Jacobian. -/
  | user (what : Subject)
  /-- A value was infinite or undefined. -/
  | numerical (what : Subject)
  | residualsZero
  /-- The residuals are orthogonal to the columns of the Jacobian. -/
  | orthogonal
  /-- The relative reduction of the objective, or the relative step, is small enough. -/
  | converged (ftol xtol : Bool)
  /-- The named tolerance cannot be met in this precision. -/
  | noImprovementPossible (what : Subject)
  | lostPatience
  | noParameters
  | notEnoughResiduals
  | wrongDimensions (what : Subject)
  deriving DecidableEq, Repr

namespace Termination

def successful : Termination → Bool
  | residualsZero | orthogonal | converged _ _ => true
  | _ => false

def badInput : Termination → Bool
  | noParameters | notEnoughResiduals | wrongDimensions _ => true
  | _ => false

def code : Termination → Int
  | noParameters | notEnoughResiduals | wrongDimensions _ => 0
  | converged true false => 1
  | converged false true => 2
  | converged _ _ => 3
  | orthogonal | residualsZero => 4
  | lostPatience => 5
  | noImprovementPossible .ftol => 6
  | noImprovementPossible .xtol => 7
  | noImprovementPossible _ => 8
  | user _ => -1
  | numerical _ => -2

def describe : Int → String
  | 0 => "improper input parameters"
  | 1 => "both actual and predicted relative reductions in the sum of squares are at most ftol"
  | 2 => "relative error between two consecutive iterates is at most xtol"
  | 3 => "conditions for ftol and xtol both hold"
  | 4 => "the residuals are orthogonal to the columns of the jacobian to gtol"
  | 5 => "number of calls to fcn has reached or exceeded maxfev"
  | 6 => "ftol is too small, no further reduction in the sum of squares is possible"
  | 7 => "xtol is too small, no further improvement in the approximate solution x is possible"
  | 8 => "gtol is too small, fvec is orthogonal to the columns of the jacobian to machine precision"
  | -1 => "user requested termination"
  | _ => "encountered a non-finite value"

def description (t : Termination) : String := describe t.code

end Termination

end Minima
