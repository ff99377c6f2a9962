import Minima.Norm

/-!
# Triangular systems

A triangular matrix is stored in lines or in heads.  Line `j` is the diagonal
entry at `j` with the entries after it: a row of an upper triangle, or a column
of a lower one.  Head `j` is the entries before the diagonal one and that entry:
a column of an upper triangle.
-/

namespace Minima

structure Line (α : Type) where
  diagonal : α
  tail : Vec α

structure Head (α : Type) where
  above : Vec α
  diagonal : α

def linesFrom {α : Type} [Scalar α] (j : Nat) : List (Head α) → List (Line α)
  | [] => []
  | c :: columns => ⟨c.diagonal, columns.map (·.above.getD j 0)⟩ :: linesFrom (j + 1) columns

def Head.lines {α : Type} [Scalar α] (columns : List (Head α)) : List (Line α) :=
  linesFrom 0 columns

namespace Line

variable {α : Type} [Scalar α]

def solveUpper : List (Line α) → Vec α → Vec α
  | l :: lines, b :: rhs =>
      let x := solveUpper lines rhs
      (b - Vec.dot l.tail x) / l.diagonal :: x
  | _, _ => []

def regular (lines : List (Line α)) : List (Line α) :=
  lines.takeWhile fun l => !Scalar.isZero l.diagonal

def solveRegular (lines : List (Line α)) (rhs : Vec α) : Vec α :=
  let x := solveUpper (regular lines) rhs
  x ++ Vec.zeros (lines.length - x.length)

def solveLower : List (Line α) → Vec α → Vec α
  | l :: lines, b :: rhs =>
      let x := b / l.diagonal
      x :: solveLower lines (Vec.accumulate (-x) l.tail rhs)
  | _, _ => []

def mulLower : List (Line α) → Vec α → Vec α → Vec α
  | l :: lines, b :: v, s :: sum =>
      (s + b * l.diagonal) :: mulLower lines v (Vec.accumulate b l.tail sum)
  | _, _, sum => sum

end Line

namespace Head

variable {α : Type} [Scalar α]

def solveTransposed (columns : List (Head α)) (rhs : Vec α) : Vec α :=
  (columns.zip rhs).foldl (fun x (c, b) => x ++ [(b - Vec.dot x c.above) / c.diagonal]) []

def mulTransposed (columns : List (Head α)) (v : Vec α) : Vec α :=
  columns.map fun c => Vec.dot v (c.above ++ [c.diagonal])

end Head

/-- A lower triangular factor in either form of storage: the transpose of the
given columns of an upper triangle, or the given columns. -/
inductive Triangle (α : Type) where
  | transposed (columns : List (Head α))
  | lower (columns : List (Line α))

namespace Triangle

variable {α : Type} [Scalar α]

def solve : Triangle α → Vec α → Vec α
  | transposed columns => Head.solveTransposed columns
  | lower columns => Line.solveLower columns

def mul : Triangle α → Vec α → Vec α
  | transposed columns, v => Head.mulTransposed columns v
  | lower columns, v => Line.mulLower columns v (Vec.zeros columns.length)

def isNonSingular : Triangle α → Bool
  | transposed columns => columns.all fun c => !Scalar.isZero c.diagonal
  | lower columns => columns.all fun l => !Scalar.isZero l.diagonal

end Triangle

end Minima
