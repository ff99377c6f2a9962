/-!
# Arithmetic

Every algorithm of this library is written once, over the operations of
`Scalar`.  Doubles are the arithmetic that runs; an exact ordered field with
square roots is another reading of the same definitions.

Comparisons are propositions with a decision procedure, so that `if a < b` has
the usual meaning in both readings.  An undefined value (`isUndefined`) is one
that is not even below itself; no comparison with it holds.
-/

namespace Minima

class Scalar (α : Type) extends Add α, Sub α, Mul α, Div α, Neg α, Zero α, One α,
    NatCast α, OfScientific α, LT α, LE α where
  decLt : (a b : α) → Decidable (a < b)
  decLe : (a b : α) → Decidable (a ≤ b)
  abs : α → α
  sqrt : α → α
  cbrt : α → α
  ln : α → α
  pow : α → α → α
  /-- Whether the sign bit is set, which a negative zero has too, and which an undefined value may
  have as well. -/
  isNegative : α → Bool
  isFinite : α → Bool
  /-- The distance from one to the next larger number. -/
  epsilon : α
  /-- The largest finite number. -/
  largest : α
  /-- The smallest positive number of full precision. -/
  smallest : α
  /-- A value above every finite one. -/
  infinity : α

namespace Scalar

variable {α : Type} [Scalar α]

instance (a b : α) : Decidable (a < b) := decLt a b

instance (a b : α) : Decidable (a ≤ b) := decLe a b

def isUndefined (a : α) : Bool := !decide (a ≤ a)

/-- Equality as a comparison: both zeros are equal, an undefined value equals nothing. -/
def same (a b : α) : Bool := decide (a ≤ b) && decide (b ≤ a)

def isZero (a : α) : Bool := same a 0

/-- The larger of two values; an undefined one is ignored if the other is not.
Of two equal values, such as zeros of different sign, it is the second. -/
def max (a b : α) : α :=
  if isUndefined a then b else if a ≤ b then b else a

/-- The smaller of two values; an undefined one is ignored if the other is not.
Of two equal values it is the second. -/
def min (a b : α) : α :=
  if isUndefined a then b else if b ≤ a then b else a

def square (a : α) : α := a * a

def powNat (a : α) (n : Nat) : α :=
  go 1 a n
where
  go (result a : α) (n : Nat) : α :=
    if h : n = 0 then result
    else
      go (if n % 2 = 1 then result * a else result) (a * a) (n / 2)
  termination_by n
  decreasing_by exact Nat.div_lt_self (Nat.pos_of_ne_zero h) (by decide)

/-- The power with an integer, for a negative one as a reciprocal. -/
def powi (a : α) (e : Int) : α :=
  if e < 0 then 1 / powNat a e.natAbs else powNat a e.natAbs

end Scalar

end Minima
