import Minima.DenseMatrix
import Minima.Norm

/-!
# Pivoted factorization by reflections

`factor` turns the columns of a matrix one after the other into columns of an
upper triangular one.  Each step takes a column of the remaining ones, reflects
it onto the first axis, applies the reflection to the columns after it, and
goes on with the rows and columns that are left.  With pivoting the step takes
the column that is longest; the lengths are updated from step to step and
computed anew when too little of them is left.
-/

namespace Minima

/-- The reflection along `w`, whose first entry is half of its squared length.
A vector that starts with zero leaves everything in place. -/
def reflect {α : Type} [Scalar α] (w v : Vec α) : Vec α :=
  match w with
  | [] => v
  | lead :: _ =>
      if Scalar.isZero lead then v else Vec.accumulate (-(Vec.dot v w / lead)) w v

namespace Factorization

structure Column (α : Type) where
  /-- The place of the column in the given matrix. -/
  source : Nat
  above : Vec α
  rest : Vec α
  /-- The length of `rest`, as updated. -/
  length : α
  /-- The length of `rest` when it was last computed. -/
  reference : α

structure Pivot (α : Type) where
  source : Nat
  above : Vec α
  diagonal : α
  reflector : Vec α

variable {α : Type} [Scalar α]

/-- The entry that the reflection of `x` onto the first axis leaves there, and
the reflector.  A zero vector stays as it is. -/
def reflectorOf (norm : Norm) (x : Vec α) : α × Vec α :=
  let length := norm.length x
  if Scalar.isZero length then (0, x)
  else
    match x with
    | [] => (0, x)
    | lead :: rest =>
        let length := if Scalar.isNegative lead then -length else length
        (-length, (lead / length + 1) :: Vec.divide rest length)

/-- The updated length of a column whose first entry is split off, and its reference. -/
def shortened (norm : Norm) (length reference lead : α) (rest : Vec α) : α × α :=
  if Scalar.isZero length then (length, reference)
  else
    let left := length * Scalar.sqrt (Scalar.max (1 - Scalar.square (lead / length)) 0)
    if 0.05 * Scalar.square (left / reference) ≤ Scalar.epsilon then
      let anew := norm.length rest
      (anew, anew)
    else (left, reference)

def Column.advance (norm : Norm) (w : Vec α) (c : Column α) : Column α :=
  match reflect w c.rest with
  | [] => c
  | lead :: rest =>
      let (length, reference) := shortened norm c.length c.reference lead rest
      { c with above := c.above ++ [lead], rest, length, reference }

def Column.skip (c : Column α) : Column α :=
  match c.rest with
  | [] => c
  | lead :: rest => { c with above := c.above ++ [lead], rest }

def swapFront {β : Type} : Nat → List β → List β
  | k + 1, a :: rest =>
      match rest[k]? with
      | some b => b :: rest.set k a
      | none => a :: rest
  | _, l => l

def reduce (norm : Norm) (pivoting : Bool) : Nat → List (Column α) → List (Pivot α)
  | 0, _ => []
  | n + 1, columns =>
      let chosen := if pivoting then Vec.argmax (columns.map (·.length)) else 0
      match swapFront chosen columns with
      | [] => []
      | c :: others =>
          let (diagonal, reflector) := reflectorOf norm c.rest
          let others :=
            if Scalar.isZero (norm.length c.rest) then others.map Column.skip
            else others.map (Column.advance norm reflector)
          ⟨c.source, c.above, diagonal, reflector⟩ :: reduce norm pivoting n others

end Factorization

structure Factorization (α : Type) where
  rows : Nat
  /-- The lengths of the columns of the given matrix, in their order there. -/
  columnNorms : Vec α
  pivots : List (Factorization.Pivot α)

namespace Factorization

variable {α : Type} [Scalar α]

def factor (norm : Norm) (pivoting : Bool) (a : DenseMatrix α) : Factorization α :=
  let columns := a.columns.zipIdx.map fun (column, j) =>
    let length := norm.length column
    (⟨j, [], column, length, length⟩ : Column α)
  ⟨a.rows, columns.map (·.length), reduce norm pivoting columns.length columns⟩

/-- Entry `j` is the column of the given matrix that was reduced in step `j`. -/
def permutation (f : Factorization α) : List Nat := f.pivots.map (·.source)

/-- The product of the reflections with a vector, the last reflection first;
each acts on the rows from its own step on. -/
def applyReflections : List (Pivot α) → Vec α → Vec α
  | p :: pivots, a :: v => reflect p.reflector (a :: applyReflections pivots v)
  | _, v => v

def applyTransposed : List (Pivot α) → Vec α → Vec α
  | [], v => v
  | p :: pivots, v =>
      match reflect p.reflector v with
      | [] => []
      | a :: v => a :: applyTransposed pivots v

def triangular (f : Factorization α) : DenseMatrix α :=
  let n := f.pivots.length
  ⟨n, f.pivots.map fun p =>
    p.above ++ p.diagonal :: Vec.zeros (n - (p.above.length + 1))⟩

def orthogonal (f : Factorization α) : DenseMatrix α :=
  ⟨f.rows, (List.range f.pivots.length).map fun j =>
    applyReflections f.pivots (Vec.unit f.rows j)⟩

end Factorization

structure Decomposition (α : Type) where
  permutation : List Nat
  triangular : DenseMatrix α
  orthogonal : DenseMatrix α

/-- A wide matrix gets rows of zeros before it is factored, and the orthogonal
factor loses them again. -/
def decompose {α : Type} [Scalar α] (norm : Norm) (pivoting : Bool) (a : DenseMatrix α) :
    Decomposition α :=
  let f := Factorization.factor norm pivoting (a.padRows a.width)
  ⟨f.permutation, f.triangular, f.orthogonal.takeRows a.rows⟩

end Minima
