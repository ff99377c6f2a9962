import Minima.Factorization.Householder
import Minima.Factorization.Triangle

/-!
# Least squares with a diagonal

A `DampedSystem` is a factored matrix `A` with a right hand side `b`, ready to
minimise `|A x - b|² + |D x|²` for one diagonal matrix `D` after another.  The
diagonal is brought into the triangle by plane rotations, one diagonal entry at
a time.  The triangle that the rotations end with is left behind in the system,
beside the one of `A`: it is the lower triangular factor of `A' A + D²` in
pivot order.
-/

namespace Minima

structure DampedSystem (α : Type) where
  permutation : List Nat
  upper : List (Head α)
  /-- The right hand side after the reflections, as far as it meets the triangle. -/
  rhs : Vec α
  /-- The column lengths of the matrix, in their order there. -/
  columnNorms : Vec α
  lower : List (Line α)

/-- A triangular factor with what is needed to use it on vectors in the order
of the matrix columns. -/
structure Factor (α : Type) where
  permutation : List Nat
  rhs : Vec α
  triangle : Triangle α

def gather {α : Type} [Scalar α] (permutation : List Nat) (v : Vec α) : Vec α :=
  permutation.map (v.getD · 0)

def scatter {α : Type} [Scalar α] (permutation : List Nat) (v : Vec α) : Vec α :=
  (permutation.zip v).foldl (fun x (i, a) => x.set i a) (Vec.zeros permutation.length)

namespace Factor

variable {α : Type} [Scalar α]

def solve (f : Factor α) (v : Vec α) : Vec α := f.triangle.solve (gather f.permutation v)

def mulRhs (f : Factor α) : Vec α := f.triangle.mul f.rhs

def isNonSingular (f : Factor α) : Bool := f.triangle.isNonSingular

end Factor

namespace DampedSystem

variable {α : Type} [Scalar α]

def ofFactorization (f : Factorization α) (b : Vec α) : DampedSystem α where
  permutation := f.permutation
  upper := f.pivots.map fun p => ⟨p.above, p.diagonal⟩
  rhs := (Factorization.applyTransposed f.pivots b).take f.pivots.length
  columnNorms := f.columnNorms
  lower := []

/-- Sine and cosine of the rotation that takes `(r, e)` to the first axis,
found from the quotient that is at most one. -/
def rotation (r e : α) : α × α :=
  if Scalar.abs r < Scalar.abs e then
    let cot := r / e
    let sin := 0.5 / Scalar.sqrt (0.25 + 0.25 * (cot * cot))
    (sin, sin * cot)
  else
    let tan := e / r
    let cos := 0.5 / Scalar.sqrt (0.25 + 0.25 * (tan * tan))
    (cos * tan, cos)

/-- Rotates a further row, with its right hand side, into the rows of a
triangle until nothing of it is left.  A row that starts with zero already
passes to the next row of the triangle. -/
def absorb : List (Line α × α) → (row : Vec α) → (rhs : α) → List (Line α × α)
  | (l, b) :: lines, e :: row, t =>
      if Scalar.isZero e then (l, b) :: absorb lines row t
      else
        let (sin, cos) := rotation l.diagonal e
        let tail := List.zipWith (fun r e => cos * r + sin * e) l.tail row
        let row := List.zipWith (fun r e => -sin * r + cos * e) l.tail row
        (⟨cos * l.diagonal + sin * e, tail⟩, cos * b + sin * t)
          :: absorb lines row (-sin * b + cos * t)
  | lines, _, _ => lines

def absorbDiagonal : (diagonal : Vec α) → List (Line α × α) → List (Line α × α)
  | d :: diagonal, l :: lines =>
      let lines :=
        if Scalar.isZero d then l :: lines
        else absorb (l :: lines) (d :: Vec.zeros lines.length) 0
      match lines with
      | l :: lines => l :: absorbDiagonal diagonal lines
      | [] => []
  | _, lines => lines

def solve (s : DampedSystem α) (diagonal : Vec α) : Vec α × DampedSystem α :=
  let lines := absorbDiagonal (gather s.permutation diagonal) ((Head.lines s.upper).zip s.rhs)
  let lower := lines.map (·.1)
  let x := Line.solveRegular lower (lines.map (·.2))
  (scatter s.permutation x, { s with lower })

/-- The solution without a diagonal.  The unknowns from the first zero pivot on are zero. -/
def solveUndamped (s : DampedSystem α) : Vec α :=
  scatter s.permutation (Line.solveRegular (Head.lines s.upper) s.rhs)

def upperFactor (s : DampedSystem α) : Factor α :=
  ⟨s.permutation, s.rhs, .transposed s.upper⟩

def lowerFactor (s : DampedSystem α) : Factor α :=
  ⟨s.permutation, s.rhs, .lower s.lower⟩

/-- The largest absolute cosine of the angles between the right hand side, of
the given length, and the columns of the matrix.  Zero columns do not count,
and nothing is returned if a cosine is undefined. -/
def maxCosine (s : DampedSystem α) (length : α) : Option α :=
  go 0 (s.upper.zip (gather s.permutation s.columnNorms))
where
  rhs := Vec.divide s.rhs length
  go (largest : α) : List (Head α × α) → Option α
    | [] => some largest
    | (c, norm) :: columns =>
        if Scalar.isZero norm then go largest columns
        else
          let cosine := Scalar.abs (Vec.dot (c.above ++ [c.diagonal]) rhs / norm)
          if Scalar.isUndefined cosine then none else go (Scalar.max largest cosine) columns

def imageLength (norm : Norm) (s : DampedSystem α) (x : Vec α) : α :=
  norm.length (go (Head.lines s.upper) (gather s.permutation x))
where
  go : List (Line α) → Vec α → Vec α
    | l :: lines, a :: x => Vec.dot (l.diagonal :: l.tail) (a :: x) :: go lines x
    | _, _ => []

end DampedSystem

/-- Minimises `|A x - b|² + |D x|²`; without a diagonal it is zero.  Missing
rows are filled with zeros. -/
def leastSquares {α : Type} [Scalar α] (norm : Norm) (pivoting : Bool) (a : DenseMatrix α)
    (b : Vec α) (diagonal : Option (Vec α)) : Checked α (Vec α) :=
  let d := diagonal.getD (Vec.zeros a.width)
  if b.length ≠ a.rows then .error (.invalid (.rightHandSide a.rows a.width b.length))
  else if d.length ≠ a.width then .error (.invalid (.diagonal a.rows a.width d.length))
  else
    let f := Factorization.factor norm pivoting (a.padRows a.width)
    let s := DampedSystem.ofFactorization f (b ++ Vec.zeros (a.width - a.rows))
    .ok (s.solve d).1

end Minima
