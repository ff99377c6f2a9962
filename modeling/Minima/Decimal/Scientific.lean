import Minima.Decimal.Binary

/-!
# Scientific notation with seventeen digits

Every finite double is written with one digit before the point, sixteen after
it and an exponent.  The digits are those of the exact binary value rounded to
nearest, a half going to the even digit, so they read back as the same double.
-/

namespace Minima.Decimal

def roundHalfEven (n d : Nat) : Nat :=
  let q := n / d
  let r := 2 * (n % d)
  if r < d then q
  else if d < r then q + 1
  else if q % 2 = 0 then q else q + 1

def significantDigits : Nat := 17

def scientificParts (mantissa : Nat) (exponent : Int) : Nat × Int :=
  let (n, d) := ratio mantissa 2 exponent
  let k := leadingExponent n d
  let (up, down) := ratio 1 10 ((significantDigits : Int) - 1 - k)
  let digits := roundHalfEven (n * up) (d * down)
  if digits = Nat.pow 10 significantDigits then (Nat.pow 10 (significantDigits - 1), k + 1)
  else (digits, k)

def scientificText (negative : Bool) (digits : Nat) (exponent : Int) : String :=
  let sign := if negative then "-" else ""
  match Nat.toDigits 10 digits with
  | [] => sign
  | lead :: rest => sign ++ String.ofList (lead :: '.' :: rest) ++ "e" ++ toString exponent

def scientific (negative : Bool) (mantissa : Nat) (exponent : Int) : String :=
  if mantissa = 0 then
    String.ofList ('0' :: '.' :: List.replicate (significantDigits - 1) '0') ++ "e0"
  else
    let (digits, k) := scientificParts mantissa exponent
    scientificText negative digits k

end Minima.Decimal
