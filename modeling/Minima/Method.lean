import Minima.Annealing
import Minima.Descent
import Minima.Evolution
import Minima.LeastSquares.Method

/-!
# Methods

The optimisation methods.  A method is its own memory: running it leaves behind
the method that the next run starts with.
-/

namespace Minima

inductive Method (ρ α : Type) where
  | descent (d : Descent α)
  | simplex (s : Simplex α)
  | annealing (a : Annealing ρ α)
  | evolution (e : Evolution ρ α)
  | leastSquares (l : LeastSquaresMethod α)

namespace Method

variable {ρ σ α : Type} [Scalar α] [RandomSource ρ]

def minimize (P : Problem σ α) : Run σ (Method ρ α) α Outcome := do
  match (← get).memory with
  | descent d => Run.within d descent (Descent.minimize P)
  | simplex s => Run.within s simplex (Simplex.minimize P)
  | annealing a => Run.within a annealing (Annealing.minimize P)
  | evolution e => Run.within e evolution (Evolution.minimize P)
  | leastSquares l => Run.within l leastSquares (LeastSquaresMethod.minimize P)

end Method

end Minima
