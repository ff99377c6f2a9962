import Minima.DenseMatrix

/-!
# Least squares targets

What the least squares solver asks of a problem: to move to a point, to say
where it is, and to compute residuals and their Jacobian there, either of which
may fail.  A target is a machine with a state, so that its answers may depend
on the calls made before.
-/

namespace Minima

structure Target (τ α : Type) where
  setParams : Vec α → StateM τ Unit
  params : τ → Vec α
  residuals : StateM τ (Option (Vec α))
  jacobian : StateM τ (Option (DenseMatrix α))

namespace Target

variable {τ α : Type}

def ofFunctions (residuals : Vec α → Option (Vec α))
    (jacobian : Vec α → Option (DenseMatrix α)) : Target (Vec α) α where
  setParams x := set x
  params x := x
  residuals := do return residuals (← get)
  jacobian := do return jacobian (← get)

/-- Answers prepared in advance.  A call beyond the last answer fails. -/
structure Script (α : Type) where
  params : Vec α
  residuals : List (Option (Vec α))
  jacobians : List (Option (DenseMatrix α))

def scripted : Target (Script α) α where
  setParams x := modify fun s => { s with params := x }
  params := Script.params
  residuals := modifyGet fun s =>
    ((s.residuals.head?).join, { s with residuals := s.residuals.tail })
  jacobian := modifyGet fun s =>
    ((s.jacobians.head?).join, { s with jacobians := s.jacobians.tail })

inductive Call (α : Type) where
  | setParams (x : Vec α)
  | residuals (answer : Option (Vec α))
  | jacobian (answer : Option (DenseMatrix α))

/-- The same target with a list of the calls made, the last one first. -/
def traced (t : Target τ α) : Target (τ × List (Call α)) α where
  setParams x := modify fun (s, calls) => ((t.setParams x s).2, .setParams x :: calls)
  params s := t.params s.1
  residuals := modifyGet fun (s, calls) =>
    let (answer, s) := t.residuals s
    (answer, s, .residuals answer :: calls)
  jacobian := modifyGet fun (s, calls) =>
    let (answer, s) := t.jacobian s
    (answer, s, .jacobian answer :: calls)

end Target

end Minima
