import Minima.Factorization.Damped

/-!
# Least squares in one storage

A `Workspace` does the work of a `DampedSystem` without new storage.  One square
matrix holds two triangles: on and above the diagonal the one of the factored
matrix, below it the one that was found for a diagonal last, whose diagonal is
kept apart.  While a diagonal is brought in the whole lower part is in use, with
the diagonal of the matrix saved elsewhere and put back entry by entry.  One
scratch vector serves every routine, and a factor that is handed out uses it too.
-/

namespace Minima

structure Workspace (α : Type) (n : Nat) where
  permutation : Vector (Fin n) n
  complete : ∀ i, i ∈ permutation
  columnNorms : Vector α n
  /-- The right hand side after the reflections. -/
  rhs : Vector α n
  /-- The columns of both triangles. -/
  columns : Vector (Vector α n) n
  /-- The diagonal of the lower triangle. -/
  diagonal : Vector α n
  scratch : Vector α n

def writeFrom {α : Type} {n : Nat} (k : Nat) (f : Fin n → α) (v : Vector α n) : Vector α n :=
  Vector.ofFn fun i => if i < k then v[i] else f i

/-! ## Bringing in a diagonal -/

/-- What the rotations work on: a triangle by the columns of its lower part, its
right hand side, and a further row with its own.  The row is kept from the place
on that is rotated next; in front of it is the diagonal that is finished. -/
structure Elimination (α : Type) (n : Nat) where
  columns : Vector (Vector α n) n
  row : Vector α n
  rhs : Vector α n
  extra : α

namespace Elimination

variable {α : Type} [Scalar α] {n : Nat}

def rotate (s : Elimination α n) (k : Fin n) : Elimination α n :=
  let (sin, cos) := DampedSystem.rotation s.columns[k][k] s.row[k]
  { columns := s.columns.set k
      (writeFrom k (fun i => cos * s.columns[k][i] + sin * s.row[i]) s.columns[k])
    row := writeFrom (k + 1) (fun i => -sin * s.columns[k][i] + cos * s.row[i]) s.row
    rhs := s.rhs.set k (cos * s.rhs[k] + sin * s.extra)
    extra := -sin * s.rhs[k] + cos * s.extra }

def sweep (s : Elimination α n) (k : Nat) : Elimination α n :=
  if h : k < n then
    let s := if Scalar.isZero s.row[k] then s else s.rotate ⟨k, h⟩
    s.sweep (k + 1)
  else s

def start (s : Elimination α n) (j : Nat) (d : α) : Elimination α n :=
  { s with row := writeFrom j (fun i => if (i : Nat) = j then d else 0) s.row, extra := 0 }

/-- Takes the finished diagonal entry of place `j` out of the matrix and puts the saved one back. -/
def finish (s : Elimination α n) (saved : Vector α n) (j : Fin n) : Elimination α n :=
  { s with
    row := s.row.set j s.columns[j][j]
    columns := s.columns.set j (s.columns[j].set j saved[j]) }

def line (s : Elimination α n) (k : Fin n) : Line α :=
  ⟨s.row[k], s.columns[k].toList.drop (k + 1)⟩

def eliminate (saved diagonal : Vector α n) (s : Elimination α n) (j : Nat) : Elimination α n :=
  if h : j < n then
    let s := if Scalar.isZero diagonal[j] then s else (s.start j diagonal[j]).sweep j
    eliminate saved diagonal (s.finish saved ⟨j, h⟩) (j + 1)
  else s

end Elimination

namespace Workspace

variable {α : Type} [Scalar α] {n : Nat}

/-! ## Vectors in place -/

def gather (permutation : Vector (Fin n) n) (v : Vector α n) : Vector α n :=
  Vector.ofFn fun j => v[permutation[j]]

def scatter (permutation : Vector (Fin n) n) (v x : Vector α n) : Vector α n :=
  (permutation.toList.zip v.toList).foldl (fun x (i, a) => x.set i a) x

def rank (lines : Fin n → Line α) : Nat :=
  (List.ofFn lines).findIdx fun l => Scalar.isZero l.diagonal

theorem rank_le (lines : Fin n → Line α) : rank lines ≤ n := by
  have hle : rank lines ≤ (List.ofFn lines).length := List.findIdx_le_length
  simpa using hle

def substitute (lines : Fin n → Line α) (rank : Nat) : (j : Nat) → j ≤ n → Vector α n → Vector α n
  | 0, _, x => x
  | j + 1, h, x =>
      let line := lines ⟨j, h⟩
      let known := (x.toList.take rank).drop (j + 1)
      substitute lines rank j (Nat.le_of_succ_le h)
        (x.set j ((x[j] - Vec.dot line.tail known) / line.diagonal))

def solveRegular (lines : Fin n → Line α) (x : Vector α n) : Vector α n :=
  substitute lines (rank lines) (rank lines) (rank_le lines) (writeFrom (rank lines) (fun _ => 0) x)

/-! ## The triangles that are stored -/

def upper (w : Workspace α n) : List (Head α) :=
  List.ofFn fun k : Fin n => ⟨w.columns[k].toList.take k, w.columns[k][k]⟩

def lower (w : Workspace α n) : List (Line α) :=
  List.ofFn fun k : Fin n => ⟨w.diagonal[k], w.columns[k].toList.drop (k + 1)⟩

def across (w : Workspace α n) (i : Fin n) : Vec α := List.ofFn fun k : Fin n => w.columns[k][i]

def row (w : Workspace α n) (j : Fin n) : Line α :=
  ⟨w.columns[j][j], (w.across j).drop (j + 1)⟩

def system (w : Workspace α n) : DampedSystem α where
  permutation := w.permutation.toList.map (·.val)
  upper := w.upper
  rhs := w.rhs.toList
  columnNorms := w.columnNorms.toList
  lower := w.lower

def mirrored (columns : Vector (Vector α n) n) : Vector (Vector α n) n :=
  Vector.ofFn fun k => writeFrom (k + 1) (fun i => columns[i][k]) columns[k]

/-! ## The routines -/

def saved (w : Workspace α n) : Vector α n := Vector.ofFn fun j => w.columns[j][j]

def elimination (w : Workspace α n) (diagonal : Vector α n) : Elimination α n :=
  Elimination.eliminate w.saved (gather w.permutation diagonal)
    ⟨mirrored w.columns, w.diagonal, w.rhs, 0⟩ 0

/-- Solves the problem with a diagonal.  The solution is written over the saved diagonal of the
matrix, which has been put back by then. -/
def solve (w : Workspace α n) (diagonal : Vector α n) : Vector α n × Workspace α n :=
  let s := w.elimination diagonal
  let scratch := solveRegular s.line s.rhs
  (scatter w.permutation scratch w.saved,
    { w with columns := s.columns, diagonal := s.row, scratch })

def solveUndamped (w : Workspace α n) : Vector α n × Workspace α n :=
  let scratch := solveRegular w.row w.rhs
  (scatter w.permutation scratch (Vector.replicate n 0), { w with scratch })

/-- The largest cosine among the columns from `k` on, with the scaled right hand side in the
scratch vector. -/
def cosines (w : Workspace α n) (largest : α) (k : Nat) : Option α :=
  if h : k < n then
    let norm := w.columnNorms[w.permutation[k]]
    if Scalar.isZero norm then w.cosines largest (k + 1)
    else
      let column := w.columns[k].toList.take (k + 1)
      let cosine := Scalar.abs (Vec.dot column (w.scratch.toList.take (k + 1)) / norm)
      if Scalar.isUndefined cosine then none
      else w.cosines (Scalar.max largest cosine) (k + 1)
  else some largest

def maxCosine (w : Workspace α n) (length : α) : Option α × Workspace α n :=
  let w := { w with scratch := w.rhs.map (· / length) }
  (w.cosines 0 0, w)

def addColumns (w : Workspace α n) (x : Vector α n) (sum : Vector α n) (k : Nat) : Vector α n :=
  if h : k < n then
    w.addColumns x
      (Vector.ofFn fun i =>
        if i ≤ k then sum[i] + w.columns[k][i] * x[w.permutation[k]] else sum[i])
      (k + 1)
  else sum

def imageLength (norm : Norm) (w : Workspace α n) (x : Vector α n) : α × Workspace α n :=
  let scratch := w.addColumns x (Vector.replicate n 0) 0
  (norm.length scratch.toList, { w with scratch })

/-! ## The factors that are handed out -/

def forward (w : Workspace α n) (x : Vector α n) (j : Nat) : Vector α n :=
  if h : j < n then
    let a := x[j] / w.diagonal[j]
    w.forward (writeFrom (j + 1) (fun i => -a * w.columns[j][i] + x[i]) (x.set j a)) (j + 1)
  else x

def forwardTransposed (w : Workspace α n) (x : Vector α n) (j : Nat) : Vector α n :=
  if h : j < n then
    let sum := Vec.dot (x.toList.take j) (w.columns[j].toList.take j)
    w.forwardTransposed (x.set j ((x[j] - sum) / w.columns[j][j])) (j + 1)
  else x

/-- The solution is found in the scratch vector and handed out with its storage; the storage of
the right hand side becomes the scratch vector. -/
def solveFactor (w : Workspace α n) (lower : Bool) (v : Vector α n) : Vector α n × Workspace α n :=
  let scratch := gather w.permutation v
  (if lower then w.forward scratch 0 else w.forwardTransposed scratch 0, { w with scratch := v })

def addLower (w : Workspace α n) (sum : Vector α n) (j : Nat) : Vector α n :=
  if h : j < n then
    let b := w.rhs[j]
    w.addLower
      (writeFrom (j + 1) (fun i => b * w.columns[j][i] + sum[i])
        (sum.set j (sum[j] + b * w.diagonal[j]))) (j + 1)
  else sum

def mulFactor (w : Workspace α n) (lower : Bool) (out : Vector α n) : Vector α n :=
  if lower then w.addLower (writeFrom 0 (fun _ => 0) out) 0
  else writeFrom 0
    (fun i => Vec.dot (w.rhs.toList.take (i + 1)) (w.columns[i].toList.take (i + 1))) out

def isNonSingular (w : Workspace α n) (lower : Bool) : Bool :=
  (if lower then w.diagonal else w.saved).toList.all fun d => !Scalar.isZero d

end Workspace

/-! ## Sequences of calls -/

inductive FactorCall (α : Type) (n : Nat) where
  | solve (v : Vector α n)
  | mulRhs (out : Vector α n)
  | isNonSingular

inductive FactorAnswer (α : Type) where
  | vector (v : Vec α)
  | flag (b : Bool)

inductive SystemCall (α : Type) (n : Nat) where
  | solve (diagonal : Vector α n) (uses : List (FactorCall α n))
  | solveUndamped (uses : List (FactorCall α n))
  | maxCosine (length : α)
  | imageLength (x : Vector α n)

inductive SystemAnswer (α : Type) where
  | solution (x : Vec α) (uses : List (FactorAnswer α))
  | cosine (c : Option α)
  | length (a : α)

section calls

variable {α : Type} [Scalar α] {n : Nat}

def Factor.answer (f : Factor α) : FactorCall α n → FactorAnswer α
  | .solve v => .vector (f.solve v.toList)
  | .mulRhs _ => .vector f.mulRhs
  | .isNonSingular => .flag f.isNonSingular

def DampedSystem.answer (norm : Norm) (s : DampedSystem α) : SystemCall α n → SystemAnswer α
  | .solve diagonal uses =>
      let (x, s) := s.solve diagonal.toList
      .solution x (uses.map s.lowerFactor.answer)
  | .solveUndamped uses => .solution s.solveUndamped (uses.map s.upperFactor.answer)
  | .maxCosine length => .cosine (s.maxCosine length)
  | .imageLength x => .length (s.imageLength norm x.toList)

namespace Workspace

def use (lower : Bool) (w : Workspace α n) : FactorCall α n → FactorAnswer α × Workspace α n
  | .solve v =>
      let (x, w) := w.solveFactor lower v
      (.vector x.toList, w)
  | .mulRhs out => (.vector (w.mulFactor lower out).toList, w)
  | .isNonSingular => (.flag (w.isNonSingular lower), w)

def useEach (lower : Bool) (w : Workspace α n) :
    List (FactorCall α n) → List (FactorAnswer α) × Workspace α n
  | [] => ([], w)
  | c :: uses =>
      let (answer, w) := w.use lower c
      let (answers, w) := w.useEach lower uses
      (answer :: answers, w)

def call (norm : Norm) (w : Workspace α n) : SystemCall α n → SystemAnswer α × Workspace α n
  | .solve diagonal uses =>
      let (x, w) := w.solve diagonal
      let (answers, w) := w.useEach true uses
      (.solution x.toList answers, w)
  | .solveUndamped uses =>
      let (x, w) := w.solveUndamped
      let (answers, w) := w.useEach false uses
      (.solution x.toList answers, w)
  | .maxCosine length =>
      let (c, w) := w.maxCosine length
      (.cosine c, w)
  | .imageLength x =>
      let (a, w) := w.imageLength norm x
      (.length a, w)

def run (norm : Norm) (w : Workspace α n) :
    List (SystemCall α n) → List (SystemAnswer α) × Workspace α n
  | [] => ([], w)
  | c :: calls =>
      let (answer, w) := w.call norm c
      let (answers, w) := w.run norm calls
      (answer :: answers, w)

end Workspace

end calls

end Minima
