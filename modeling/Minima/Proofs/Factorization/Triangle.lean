import Mathlib.Data.List.TakeWhile
import Mathlib.LinearAlgebra.Matrix.Block
import Minima.Factorization.Triangle
import Minima.Proofs.Exact.Matrix

/-!
# Triangles by their lines

The lines of a triangle are the columns of a lower triangular matrix with the
zeros above the diagonal left out.  A line has a value at a point, the inner
product with the part of the point from its own place on, and back substitution
finds the point at which the lines have given values.
-/

namespace Minima

open Matrix

/-- Each line is one entry longer than the next. -/
def IsTriangle : List (Line ℝ × ℝ) → Prop
  | [] => True
  | (l, _) :: lines => l.tail.length = lines.length ∧ IsTriangle lines

noncomputable def lineValues : List (Line ℝ × ℝ) → Vec ℝ → ℝ → Vec ℝ
  | (l, b) :: lines, a :: x, s =>
      (Vec.dot (l.diagonal :: l.tail) (a :: x) + b * s) :: lineValues lines x s
  | _, _, _ => []

noncomputable def Line.lowerMatrix (lines : List (Line ℝ)) : DenseMatrix ℝ where
  rows := lines.length
  columns := lines.mapIdx fun j l => Vec.zeros j ++ l.diagonal :: l.tail

@[simp] theorem lineValues_nil (x : Vec ℝ) (s : ℝ) : lineValues [] x s = [] := by
  simp [lineValues]

@[simp] theorem lineValues_cons (l : Line ℝ) (b : ℝ) (lines : List (Line ℝ × ℝ)) (a : ℝ)
    (x : Vec ℝ) (s : ℝ) :
    lineValues ((l, b) :: lines) (a :: x) s =
      (l.diagonal * a + Vec.dot l.tail x + b * s) :: lineValues lines x s := by
  simp [lineValues]

theorem IsTriangle.length_tail {lines : List (Line ℝ × ℝ)} (h : IsTriangle lines) {j : Nat}
    (hj : j < lines.length) : lines[j].1.tail.length = lines.length - (j + 1) := by
  induction lines generalizing j with
  | nil => simp at hj
  | cons line lines ih =>
      cases j with
      | zero => simpa using h.1
      | succ j =>
          have hj : j < lines.length := by simpa using hj
          have := ih h.2 hj
          simp only [List.getElem_cons_succ, List.length_cons]
          omega

theorem length_lineValues {lines : List (Line ℝ × ℝ)} {x : Vec ℝ} (h : x.length = lines.length)
    (s : ℝ) : (lineValues lines x s).length = lines.length := by
  induction lines generalizing x with
  | nil => simp
  | cons line lines ih =>
      cases x with
      | nil => simp at h
      | cons a x => simp [lineValues, ih (x := x) (by simpa using h)]

theorem getElem_lineValues {lines : List (Line ℝ × ℝ)} {x : Vec ℝ} (s : ℝ) {j : Nat}
    (hj : j < lines.length) (hx : j < x.length) (h : j < (lineValues lines x s).length) :
    (lineValues lines x s)[j] =
      Vec.dot (lines[j].1.diagonal :: lines[j].1.tail) (x.drop j) + lines[j].2 * s := by
  induction lines generalizing x j with
  | nil => simp at hj
  | cons line lines ih =>
      cases x with
      | nil => simp at hx
      | cons a x =>
          cases j with
          | zero => simp [lineValues]
          | succ j =>
              simpa [lineValues] using
                ih (by simpa using hj) (by simpa using hx) (by simpa [lineValues] using h)

/-! ## The lower triangular matrix -/

section lower

variable {n : Nat} {lines : List (Line ℝ × ℝ)} {L : Matrix (Fin n) (Fin n) ℝ}

theorem IsTriangle.exists_lowerMatrix (h : IsTriangle lines) (hn : lines.length = n) :
    ∃ L : Matrix (Fin n) (Fin n) ℝ, Line.lowerMatrix (lines.map (·.1)) = .ofMatrix L := by
  subst hn
  refine ⟨Matrix.of fun i j => Vec.toFn lines.length
    (Vec.zeros j ++ lines[j].1.diagonal :: lines[j].1.tail) i, ?_⟩
  simp only [Line.lowerMatrix, DenseMatrix.ofMatrix, List.length_map, DenseMatrix.mk.injEq,
    true_and]
  apply List.ext_getElem
  · simp
  · intro j hj _
    have hj : j < lines.length := by simpa using hj
    have hlength : (Vec.zeros j ++ lines[j].1.diagonal :: lines[j].1.tail).length =
        lines.length := by
      simp only [List.length_append, Vec.length_zeros, List.length_cons, h.length_tail hj]
      omega
    simp only [List.getElem_mapIdx, List.getElem_map, List.getElem_ofFn, Matrix.of_apply]
    exact (Vec.ofFn_toFn hlength).symm

variable (hL : Line.lowerMatrix (lines.map (·.1)) = .ofMatrix L)
include hL

theorem length_of_lowerMatrix : lines.length = n := by
  have hrows := congrArg DenseMatrix.rows hL
  simpa [Line.lowerMatrix] using hrows

theorem column_of_lowerMatrix (j : Fin n) (hj : (j : Nat) < lines.length) :
    (Vec.zeros j ++ lines[(j : Nat)].1.diagonal :: lines[(j : Nat)].1.tail) =
      List.ofFn fun i => L i j := by
  have hcolumns := congrArg (fun a => a.columns[(j : Nat)]?) hL
  simpa [Line.lowerMatrix, DenseMatrix.ofMatrix, hj] using hcolumns

theorem isLowerTriangular_of_lowerMatrix : L.IsLowerTriangular := by
  intro i j hij
  have hj : (j : Nat) < lines.length := by simp [length_of_lowerMatrix hL]
  have hentry := congrArg (fun l => l[(i : Nat)]?) (column_of_lowerMatrix hL j hj)
  have hij : (i : Nat) < j := OrderDual.toDual_lt_toDual.mp hij
  simp only [List.getElem?_ofFn, Fin.is_lt, dif_pos] at hentry
  rw [List.getElem?_append_left (by simpa using hij), Vec.zeros, List.getElem?_replicate,
    if_pos hij] at hentry
  exact (Option.some.inj hentry).symm

theorem diagonal_of_lowerMatrix (j : Fin n) (hj : (j : Nat) < lines.length) :
    lines[(j : Nat)].1.diagonal = L j j := by
  have hentry := congrArg (fun l => l[(j : Nat)]?) (column_of_lowerMatrix hL j hj)
  simp only [List.getElem?_ofFn, Fin.is_lt, dif_pos] at hentry
  rw [List.getElem?_append_right (by simp)] at hentry
  simpa using hentry

theorem lineValues_ofFn {c : Fin n → ℝ} (hc : lines.map (·.2) = List.ofFn c) (x : Fin n → ℝ)
    (s : ℝ) : lineValues lines (List.ofFn x) s = List.ofFn (Lᵀ *ᵥ x + s • c) := by
  have hn := length_of_lowerMatrix hL
  have hlength : (lineValues lines (List.ofFn x) s).length = lines.length :=
    length_lineValues (by simp [hn]) s
  apply List.ext_getElem
  · simp [hlength, hn]
  · intro j hj _
    have hj : j < lines.length := hlength ▸ hj
    have hjn : j < n := hn ▸ hj
    have hrhs : lines[j].2 = c ⟨j, hjn⟩ := by
      have := congrArg (fun l => l[j]?) hc
      simpa [hj, hjn] using this
    -- the zeros above the diagonal meet the part of `x` that the line leaves out
    have hdot : Vec.dot (lines[j].1.diagonal :: lines[j].1.tail) ((List.ofFn x).drop j) =
        Vec.dot (Vec.zeros j ++ lines[j].1.diagonal :: lines[j].1.tail)
          ((List.ofFn x).take j ++ (List.ofFn x).drop j) := by
      rw [Vec.dot_append (by simp; omega), Vec.dot_zeros_left, zero_add]
    rw [getElem_lineValues s hj (by simpa using hjn), hdot, List.take_append_drop,
      column_of_lowerMatrix hL ⟨j, hjn⟩ hj, Vec.dot_ofFn, hrhs]
    simp [mulVec, mul_comm]

end lower

/-! ## Back substitution -/

section substitution

variable {lines : List (Line ℝ × ℝ)} (h : ∀ l ∈ lines, l.1.diagonal ≠ 0)
include h

/-- Back substitution finds the point at which the lines have the values of the
right hand side. -/
theorem lineValues_solveUpper :
    (Line.solveUpper (lines.map (·.1)) (lines.map (·.2))).length = lines.length ∧
      lineValues lines (Line.solveUpper (lines.map (·.1)) (lines.map (·.2))) (-1) =
        Vec.zeros lines.length := by
  induction lines with
  | nil => simp [Line.solveUpper, Vec.zeros]
  | cons line lines ih =>
      obtain ⟨l, b⟩ := line
      obtain ⟨hlength, hzero⟩ := ih fun l hl => h l (List.mem_cons_of_mem _ hl)
      have hdiagonal : l.diagonal ≠ 0 := h (l, b) (by simp)
      simp only [List.map_cons, Line.solveUpper, List.length_cons, hlength, lineValues_cons, hzero,
        Vec.zeros, List.replicate_succ, List.cons.injEq, and_true, true_and]
      rw [mul_div_cancel₀ _ hdiagonal]
      ring

theorem solveRegular_eq_solveUpper :
    Line.solveRegular (lines.map (·.1)) (lines.map (·.2)) =
      Line.solveUpper (lines.map (·.1)) (lines.map (·.2)) := by
  have hregular : Line.regular (lines.map (·.1)) = lines.map (·.1) := by
    rw [Line.regular, List.takeWhile_eq_self_iff]
    intro l hl
    obtain ⟨line, hline, rfl⟩ := List.mem_map.mp hl
    simpa using h line hline
  simp [Line.solveRegular, hregular, (lineValues_solveUpper h).1, Vec.zeros]

end substitution

end Minima
