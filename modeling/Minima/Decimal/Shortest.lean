import Minima.Decimal.Binary

/-!
# The shortest text that reads back

Numbers inside messages are written with as few digits as identify them among
all doubles, in positional notation whatever their size.  Of two candidates of
that length the nearer is taken, and the larger if they are equally near.
-/

namespace Minima.Decimal

/-- A positive double `value` and the ends of the interval of reals that round
to it, all three in units of `2 ^ exponent`.  The ends belong to the interval
if `closed`. -/
structure RoundingInterval where
  low : Nat
  value : Nat
  high : Nat
  exponent : Int
  closed : Bool

def RoundingInterval.of (mantissa : Nat) (exponent : Int) : RoundingInterval where
  low :=
    if mantissa = Binary.hiddenBit ∧ exponent ≠ Binary.leastExponent then 4 * mantissa - 1
    else 4 * mantissa - 2
  value := 4 * mantissa
  high := 4 * mantissa + 2
  exponent := exponent - 2
  closed := mantissa % 2 = 0

def RoundingInterval.sides (i : RoundingInterval) (n c : Nat) (g : Int) : Nat × Nat :=
  let (twos, halves) := ratio 1 2 i.exponent
  let (tens, tenths) := ratio 1 10 g
  (n * twos * tenths, c * tens * halves)

def RoundingInterval.holds (i : RoundingInterval) (c : Nat) (g : Int) : Bool :=
  let (low, left) := i.sides i.low c g
  let (high, right) := i.sides i.high c g
  if i.closed then low ≤ left && right ≤ high else low < left && right < high

/-- The neighbours of the value among the multiples of `10 ^ g`, and the nearer
of those that read back. -/
def RoundingInterval.onGrid? (i : RoundingInterval) (g : Int) : Option Nat :=
  let (value, step) := i.sides i.value 1 g
  let below := value / step
  let above := below + 1
  let aboveIsNearer := step ≤ 2 * (value % step)
  match i.holds below g, i.holds above g with
  | true, true => some (if aboveIsNearer then above else below)
  | true, false => some below
  | false, true => some above
  | false, false => none

def RoundingInterval.shortest (i : RoundingInterval) : Nat → Int → Nat × Int
  | 0, g => (i.value / (i.sides i.value 1 g).2, g)
  | more + 1, g =>
      match i.onGrid? g with
      | some c => (c, g)
      | none => i.shortest more (g - 1)

def positional (c : Nat) (g : Int) : String :=
  let digits := Nat.toDigits 10 c
  if 0 ≤ g then String.ofList (digits ++ List.replicate g.toNat '0')
  else
    let places := (-g).toNat
    let padded := List.replicate (places + 1 - digits.length) '0' ++ digits
    let whole := padded.take (padded.length - places)
    let fraction := padded.drop (padded.length - places)
    String.ofList (whole ++ '.' :: fraction)

def trimZeros (c : Nat) (g : Int) : Nat × Int :=
  if h : c ≠ 0 ∧ c % 10 = 0 then trimZeros (c / 10) (g + 1) else (c, g)
termination_by c
decreasing_by omega

def shortestText (mantissa : Nat) (exponent : Int) : String :=
  if mantissa = 0 then "0"
  else
    let i := RoundingInterval.of mantissa exponent
    let (n, d) := ratio mantissa 2 exponent
    let (c, g) := i.shortest 17 (leadingExponent n d)
    let (c, g) := trimZeros c g
    positional c g

def text (x : Float) : String :=
  match Binary.ofFloat x with
  | .undefined => "NaN"
  | .infinite negative => if negative then "-inf" else "inf"
  | .finite negative mantissa exponent =>
      (if negative then "-" else "") ++ shortestText mantissa exponent

end Minima.Decimal
