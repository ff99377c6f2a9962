/-!
# The exact value of a double

A finite double is a signed integer times a power of two.  Decimal texts are
made from that value in exact integer arithmetic.
-/

namespace Minima.Decimal

inductive Binary where
  | undefined
  | infinite (negative : Bool)
  /-- The value `mantissa * 2 ^ exponent`. -/
  | finite (negative : Bool) (mantissa : Nat) (exponent : Int)
  deriving DecidableEq, Repr

namespace Binary

def hiddenBit : Nat := 1 <<< 52

def leastExponent : Int := -1074

def ofBits (bits : Nat) : Binary :=
  let negative := bits.testBit 63
  let exponent := (bits >>> 52) % 2048
  let fraction := bits % hiddenBit
  if exponent = 2047 then
    if fraction = 0 then infinite negative else undefined
  else if exponent = 0 then finite negative fraction leastExponent
  else finite negative (hiddenBit + fraction) (leastExponent + exponent - 1)

def ofFloat (x : Float) : Binary := ofBits x.toBits.toNat

end Binary

/-- The quotient of `a` and `b` as a pair, for an exponent of either sign:
`n * base ^ e`. -/
def ratio (n base : Nat) (e : Int) : Nat × Nat :=
  if 0 ≤ e then (n * base.pow e.toNat, 1) else (n, base.pow (-e).toNat)

def digitCount (n : Nat) : Nat := (Nat.toDigits 10 n).length

def leadingExponent (n d : Nat) : Int :=
  let guess : Int := (digitCount n : Int) - digitCount d
  let (up, down) := ratio 1 10 guess
  if up * d ≤ n * down then guess else guess - 1

end Minima.Decimal
