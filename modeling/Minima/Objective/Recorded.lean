import Minima.Objective

/-!
# Costs and the record of their evaluations

A cost gives functions of the point alone, each of which may fail with a
reason.  As an objective its state is the list of all evaluations of the given
functions, the last one first.
-/

namespace Minima

structure Cost (α : Type) where
  value : Vec α → Except String α
  values : Option (Vec α → Except String (Vec α))
  gradient : Option (Vec α → Except String (Vec α))
  jacobian : Option (Vec α → Except String (DenseMatrix α))
  step : α

inductive Evaluation (α : Type) where
  | value (x : Vec α) (answer : Except (Error α) α)
  | values (x : Vec α) (answer : Except (Error α) (Vec α))
  | gradient (x : Vec α) (answer : Except (Error α) (Vec α))
  | jacobian (x : Vec α) (answer : Except (Error α) (DenseMatrix α))

namespace Cost

variable {α : Type}

def record {β : Type} (entry : Vec α → Except (Error α) β → Evaluation α)
    (f : Vec α → Except String β) (x : Vec α) : Eval (List (Evaluation α)) α β := fun evaluations =>
  let answer := (f x).mapError Error.costFunction
  (answer.mapError Failure.error, entry x answer :: evaluations)

variable [Scalar α]

def sumOfSquares (values : Vec α → Except String (Vec α)) (x : Vec α) : Except String α :=
  (values x).map fun v => Vec.dot v v

def objective (c : Cost α) : Objective (List (Evaluation α)) α :=
  Objective.ofParts (record .value c.value) (c.values.map (record .values))
    (c.gradient.map (record .gradient)) (c.jacobian.map (record .jacobian)) c.step

end Cost

end Minima
