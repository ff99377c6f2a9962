import Minima.Decimal.Scientific
import Minima.Double
import Minima.Expression
import Minima.Failure.Message
import Minima.Fit
import Minima.Objective.Recorded
import Minima.Random.Generator
import Minima.Region.Constraint
import Minima.Proofs.Exact
import Minima.Proofs.Exact.Vec
import Minima.Proofs.Factorization.Reduction
import Minima.Proofs.Exact.Matrix
import Minima.Proofs.Factorization.Decomposition
import Minima.Proofs.Factorization.Rotation
import Minima.Proofs.Factorization.Damped
import Minima.Proofs.Double.Rounding
import Minima.Proofs.Double.Shifting
import Minima.Proofs.Double.Unpacked
import Minima.Proofs.Double.Packing
import Minima.Proofs.Double
import Minima.Proofs.Ordered
import Minima.Proofs.Norm
import Minima.Proofs.LeastSquares.Comparison
import Minima.Proofs.LeastSquares.Target
import Minima.Proofs.LeastSquares.Descent
import Minima.Proofs.LeastSquares.Feasible
import Minima.Proofs.Lengths
import Minima.Proofs.Descent.QuasiNewton
import Minima.Proofs.LineSearch
import Minima.Proofs.LineSearch.Trials
import Minima.Proofs.Descent.Accepted
import Minima.Proofs.Descent.Monotone
import Minima.Proofs.Simplex.Ranking
import Minima.Proofs.Simplex.Falling
import Minima.Proofs.Simplex.Moves
import Minima.Proofs.Simplex.Lowest
import Minima.Proofs.Simplex.Feasible
import Minima.Proofs.Annealing.Best
import Minima.Proofs.Evolution.Mutation
import Minima.Proofs.Evolution.Generations
import Minima.Proofs.Evolution.Runs
import Minima.Proofs.Evolution.Best
import Minima.Proofs.Constraint
import Minima.Proofs.Evolution.Box
import Minima.Proofs.Upholds
import Minima.Proofs.Failures
import Minima.Proofs.Simplex.Failures
import Minima.Proofs.Annealing.Passes
import Minima.Proofs.Annealing.Failures
import Minima.Proofs.Descent.Failures
import Minima.Proofs.LeastSquares.Interrupted
import Minima.Proofs.LeastSquares.Failures
import Minima.Proofs.Evolution.Failures
import Minima.Proofs.Method.Failures
import Minima.Proofs.Repeats
import Minima.Proofs.Method.Repetition
import Minima.Proofs.Descent.Outcome
import Minima.Proofs.Simplex.Outcome
import Minima.Proofs.Annealing.Outcome
import Minima.Proofs.Evolution.Outcome
import Minima.Proofs.LeastSquares.Outcome
import Minima.Proofs.Method.Outcome
import Minima.Proofs.StoppingRule.History
import Minima.Proofs.Evolution.Finite
import Minima.Proofs.Factorization.Pivoting
import Minima.Proofs.Factorization.Undamped
import Minima.Proofs.LeastSquares.TrustRegion
import Minima.Proofs.LeastSquares.Divisors
import Minima.Proofs.Double.Digits
import Minima.Proofs.Double.Parts
import Minima.Proofs.Constraint.Mixture
import Minima.Proofs.Evolution.Feasible
import Minima.Proofs.LineSearch.Acceptance
import Minima.Proofs.LineSearch.Bracket
import Minima.Proofs.LineSearch.Sufficient
import Minima.Proofs.Mirrors
import Minima.Proofs.LeastSquares.Evaluations
import Minima.Proofs.Evolution.Overrides
import Minima.Proofs.Zero
import Minima.Proofs.Annealing.Ranking
import Minima.Proofs.Annealing.Counted
import Minima.Proofs.Annealing.Expansion
import Minima.Proofs.Annealing.Cold
import Minima.Proofs.LeastSquares.Trail
import Minima.Proofs.LeastSquares.Patience
import Minima.Proofs.LeastSquares.Numerical
import Minima.Proofs.LeastSquares.Radius
import Minima.Proofs.LeastSquares.Settings
import Minima.Proofs.Factorization.Dominance
import Minima.Proofs.Factorization.Angles
import Minima.Proofs.Factorization.Deficient
import Minima.Factorization.Workspace
import Minima.Proofs.Factorization.Elimination
import Minima.Proofs.Factorization.Reuse
import Minima.Proofs.Factorization.Storage
import Minima.Proofs.Region.Halving
import Minima.Proofs.Constraint.Enclosure
import Minima.Proofs.StoppingRule.Undefined
import Minima.Proofs.Objective.Differences
import Minima.Proofs.Objective.Projected
import Minima.Proofs.Projection
import Minima.Proofs.Region.Projected
import Minima.Proofs.Quadratic
import Minima.Proofs.Objective.Exact
import Minima.Proofs.LeastSquares.Differences
import Minima.Proofs.Simplex.Measured
import Minima.Proofs.Method.Stored
import Minima.Proofs.Fit
import Minima.Proofs.RunnerUp
import Minima.Proofs.Descent.Searches
import Minima.Proofs.Simplex.Narrowing
import Minima.Proofs.Simplex.Centroid
import Minima.Proofs.Annealing.Centroid
import Minima.Proofs.Factorization.Halves
import Minima.Proofs.LeastSquares.Restored
import Minima.Proofs.Exact.Partial
import Minima.Proofs.Norm.Guarded
import Minima.Proofs.Evolution.Crossover
