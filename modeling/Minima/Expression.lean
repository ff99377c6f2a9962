/-!
# Formulas in the parameters

A formula is a tree of arithmetic operations over constants and the coordinates
of a vector.  Its evaluation fails at a coordinate that the vector does not
have and at a node made to fail; operands are evaluated from left to right and
the first failure is the result.
-/

namespace Minima

inductive Expression where
  | constant (value : Float)
  | parameter (index : Nat)
  | add (a b : Expression)
  | sub (a b : Expression)
  | mul (a b : Expression)
  | div (a b : Expression)
  | pow (a b : Expression)
  | neg (a : Expression)
  | square (a : Expression)
  | sqrt (a : Expression)
  | exp (a : Expression)
  | ln (a : Expression)
  | sin (a : Expression)
  | cos (a : Expression)
  | atan (a : Expression)
  | abs (a : Expression)
  /-- The value of `t` if `a` is below `b`, that of `e` otherwise. -/
  | ifBelow (a b t e : Expression)
  | fail (reason : String)

namespace Expression

def eval (x : List Float) : Expression → Except String Float
  | constant value => .ok value
  | parameter index =>
      match x[index]? with
      | some value => .ok value
      | none => .error ("no x" ++ toString index)
  | add a b => do return (← a.eval x) + (← b.eval x)
  | sub a b => do return (← a.eval x) - (← b.eval x)
  | mul a b => do return (← a.eval x) * (← b.eval x)
  | div a b => do return (← a.eval x) / (← b.eval x)
  | pow a b => do return Float.pow (← a.eval x) (← b.eval x)
  | neg a => do return -(← a.eval x)
  | square a => do
      let value ← a.eval x
      return value * value
  | sqrt a => do return Float.sqrt (← a.eval x)
  | exp a => do return Float.exp (← a.eval x)
  | ln a => do return Float.log (← a.eval x)
  | sin a => do return Float.sin (← a.eval x)
  | cos a => do return Float.cos (← a.eval x)
  | atan a => do return Float.atan (← a.eval x)
  | abs a => do return Float.abs (← a.eval x)
  | ifBelow a b t e => do
      let left ← a.eval x
      let right ← b.eval x
      if left < right then t.eval x else e.eval x
  | fail reason => .error reason

def evalAll (x : List Float) (es : List Expression) : Except String (List Float) :=
  es.mapM (·.eval x)

end Expression

end Minima
