import Minima.Vec

/-!
# Euclidean norms

The least squares kernels measure vectors in one of two ways.  The plain norm
sums the squares.  The guarded norm keeps three sums, of the small, the medium
and the large coordinates, and scales the outer two by the largest coordinate
they have seen, so that no square underflows or overflows.
-/

namespace Minima

inductive Norm where
  | plain
  | guarded
  deriving DecidableEq, Repr

/-- The sums of the guarded norm.  `large` and `small` are in units of the
square of the largest coordinate of their kind. -/
structure GuardedSums (α : Type) where
  large : α
  medium : α
  small : α
  largest : α
  smallest : α

namespace GuardedSums

variable {α : Type} [Scalar α]

def lowerBound : α := 3.834e-20

def upperBound (n : Nat) : α := 1.304e19 / (n : α)

def add (limit : α) (s : GuardedSums α) (x : α) : GuardedSums α :=
  let a := Scalar.abs x
  if lowerBound < a ∧ a < limit then { s with medium := s.medium + a * a }
  else if a ≤ lowerBound then
    if s.smallest < a then
      { s with small := 1 + s.small * Scalar.square (s.smallest / a), smallest := a }
    else if Scalar.isZero a then s
    else { s with small := s.small + Scalar.square (a / s.smallest) }
  else if s.largest < a then
    { s with large := 1 + s.large * Scalar.square (s.largest / a), largest := a }
  else { s with large := s.large + Scalar.square (a / s.largest) }

def root (s : GuardedSums α) : α :=
  if !Scalar.isZero s.large then
    s.largest * Scalar.sqrt (s.large + s.medium / s.largest / s.largest)
  else if !Scalar.isZero s.medium then
    if s.smallest ≤ s.medium then
      Scalar.sqrt (s.medium * (1 + s.smallest / s.medium * (s.smallest * s.small)))
    else
      Scalar.sqrt (s.smallest * (s.medium / s.smallest + s.smallest * s.small))
  else s.smallest * Scalar.sqrt s.small

end GuardedSums

namespace Vec

variable {α : Type} [Scalar α]

def guardedNorm (v : Vec α) : α :=
  (v.foldl (GuardedSums.add (GuardedSums.upperBound v.length)) ⟨0, 0, 0, 0, 0⟩).root

end Vec

namespace Norm

variable {α : Type} [Scalar α]

def length : Norm → Vec α → α
  | plain => Vec.norm
  | guarded => Vec.guardedNorm

end Norm

end Minima
