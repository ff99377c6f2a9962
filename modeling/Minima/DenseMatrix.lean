import Minima.Failure
import Minima.Vec

/-!
# Dense matrices

A matrix is the list of its columns together with their common length, which
the list alone does not give when it is empty.
-/

namespace Minima

structure DenseMatrix (α : Type) where
  rows : Nat
  columns : List (Vec α)

namespace DenseMatrix

variable {α : Type} [Scalar α]

def width (a : DenseMatrix α) : Nat := a.columns.length

def ofRows (width : Nat) (rows : List (Vec α)) : DenseMatrix α where
  rows := rows.length
  columns := (List.range width).map fun j => rows.map fun row => row.getD j 0

def toRows (a : DenseMatrix α) : List (Vec α) :=
  (List.range a.rows).map fun i => a.columns.map fun column => column.getD i 0

/-- Columns of different lengths do not make a matrix. -/
def ofColumns (rows : Nat) (columns : List (Vec α)) : Checked α (DenseMatrix α) :=
  if columns.all (·.length == rows) then .ok ⟨rows, columns⟩ else .error .sizeMismatch

def identity (n : Nat) : DenseMatrix α := ⟨n, (List.range n).map (Vec.unit n)⟩

def neg (a : DenseMatrix α) : DenseMatrix α := { a with columns := a.columns.map Vec.neg }

def mulVec (a : DenseMatrix α) (y : Vec α) : Vec α :=
  match a.columns, y with
  | first :: columns, s :: y =>
      (columns.zip y).foldl (fun sum (column, s) => Vec.accumulate s column sum)
        (Vec.scale s first)
  | _, _ => Vec.zeros a.rows

def transposeMulVec (a : DenseMatrix α) (y : Vec α) : Vec α :=
  a.columns.map fun column => Vec.laneDot column y

def addOuter (s : α) (x y : Vec α) (a : DenseMatrix α) : DenseMatrix α :=
  { a with
    columns := List.zipWith (fun column t => Vec.accumulate (s * t) x column) a.columns y }

def isFinite (a : DenseMatrix α) : Bool := a.columns.all fun column => column.all Scalar.isFinite

def padRows (rows : Nat) (a : DenseMatrix α) : DenseMatrix α where
  rows := a.rows + (rows - a.rows)
  columns := a.columns.map fun column => column ++ Vec.zeros (rows - a.rows)

def takeRows (rows : Nat) (a : DenseMatrix α) : DenseMatrix α where
  rows := min rows a.rows
  columns := a.columns.map fun column => column.take rows

end DenseMatrix

end Minima
