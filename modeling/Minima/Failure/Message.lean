import Minima.Decimal.Shortest
import Minima.Failure

/-!
# Error texts

Numbers inside the texts are written by `Decimal.text`.
-/

namespace Minima

open Decimal (text)

def ArgumentError.message : ArgumentError Float → String
  | stationaryBudgetTooSmall budget =>
      s!"max_stationary_state_iterations ({budget}) must be greater than one"
  | stationaryBudgetTooLarge budget iterations =>
      s!"max_stationary_state_iterations ({budget}) must be less than max_iterations ({iterations})"
  | crossedBounds low high =>
      "lower bound " ++ text low ++ " must not exceed upper bound " ++ text high
  | boundLengths low high =>
      s!"upper and lower boundaries sizes are inconsistent ({low} vs {high})"
  | maskLength mask parameters =>
      s!"fix_parameters size ({mask}) does not match number of parameters ({parameters})"
  | allFixed => "all parameters are fixed"
  | fullLength given expected =>
      s!"parameters size ({given}) does not match projection size ({expected})"
  | freeLength given expected =>
      s!"projected parameters size ({given}) does not match number of free parameters ({expected})"
  | rightHandSide rows columns length =>
      s!"dimensions of A ({rows}x{columns}) and b ({length}) don't match"
  | diagonal rows columns length =>
      s!"dimensions of A ({rows}x{columns}) and d ({length}) don't match"
  | noVariables => "no variables given"
  | tooFewResiduals residuals unknowns =>
      s!"less functions ({residuals}) than available variables ({unknowns})"
  | negativeTolerance => "negative f tolerance"
  | noEvaluations => "null number of evaluations"
  | noParameters => "cannot minimize over zero parameters"
  | boxLengths lower upper parameters =>
      s!"bounds of size {lower} and {upper} for {parameters} parameters"
  | infiniteBox => "differential evolution needs finite bounds"
  | memberLength given expected =>
      s!"initial population member of size {given}, expected {expected}"
  | stepWeight weight => "stepsize weight (" ++ text weight ++ ") must be in [0, 2]"
  | crossoverProbability probability =>
      "crossover probability (" ++ text probability ++ ") must be in [0, 1]"
  | emptyPopulation => "population must have at least one member"
  | emptyInitialPopulation => "initial population is empty"
  | startLength given expected =>
      s!"initial value has {given} entries but the problem has {expected} parameters"

def Error.message : Error Float → String
  | invalidArgument cause => "invalid argument: " ++ cause.message
  | infeasibleStep halvings => s!"can't update parameter vector after {halvings} step halvings"
  | infeasibleStart => "initial guess is not in the feasible region"
  | costFunction reason => "cost function failed: " ++ reason
  | userAbort => "user requested termination"
  | leastSquares reason =>
      "MINPACK: " ++ reason.description ++ " (info = " ++ toString reason.code ++ ")"

def SolverSetting.message : SolverSetting → String
  | ftol => "ftol must be >= 0"
  | xtol => "xtol must be >= 0"
  | gtol => "gtol must be >= 0"
  | tol => "tol must be > 0"
  | stepbound => "stepbound must be > 0"
  | patience => "patience must be > 0"
  | epsfcn => "epsfcn must be >= 0"

def Refusal.message : Refusal Float → String
  | sufficientDecrease alpha => "alpha must be in (0, 0.5), got " ++ text alpha
  | backtracking beta => "beta must be in (0, 1), got " ++ text beta
  | bracketing alpha beta =>
      "expected 0 < alpha < beta < 1, got alpha = " ++ text alpha ++ ", beta = " ++ text beta
  | extrapolation factor => "extrapolation must be greater than one, got " ++ text factor
  | solver setting => setting.message

end Minima
