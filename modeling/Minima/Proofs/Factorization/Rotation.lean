import Mathlib.Tactic.FieldSimp
import Mathlib.Tactic.Linarith
import Mathlib.Tactic.LinearCombination
import Minima.Factorization.Damped
import Minima.Proofs.Factorization.Triangle

/-!
# Rotations in exact arithmetic

Absorbing a further row into a triangle keeps the inner products of the values
of its lines with the row counted in, up to what is left of the right hand side
of the row.  The right hand side is scaled by a number of its own, so that one
identity speaks of the squared residuals, of the squared lengths and of what
lies between them.
-/

namespace Minima

namespace DampedSystem

/-! ## One rotation -/

theorem rotation_mul_self (r e : ℝ) :
    (rotation r e).1 * (rotation r e).1 + (rotation r e).2 * (rotation r e).2 = 1 := by
  have quarter (q : ℝ) : √(0.25 + 0.25 * (q * q)) * √(0.25 + 0.25 * (q * q)) =
      (1 + q * q) / 4 := by
    have hq : (0.25 : ℝ) + 0.25 * (q * q) = (1 + q * q) / 4 := by
      norm_num
      linarith
    have hnonneg : 0 ≤ (1 + q * q) / 4 := by
      have := mul_self_nonneg q
      linarith
    rw [hq, Real.mul_self_sqrt hnonneg]
  have half : (0.5 : ℝ) * 0.5 = 1 / 4 := by
    norm_num
  -- both cases end in the same fraction, whatever the quotient is
  have unit (q : ℝ) : 1 / 4 / ((1 + q * q) / 4) * (1 + q * q) = 1 := by
    have : 0 < 1 + q * q := by
      have := mul_self_nonneg q
      linarith
    field_simp
  unfold rotation
  split_ifs
  · simp only [Scalar.sqrt_real]
    rw [mul_mul_mul_comm, div_mul_div_comm, quarter, half]
    refine Eq.trans ?_ (unit (r / e))
    ring
  · simp only [Scalar.sqrt_real]
    rw [mul_mul_mul_comm, div_mul_div_comm, quarter, half]
    refine Eq.trans ?_ (unit (e / r))
    ring

theorem rotation_annihilates (r : ℝ) {e : ℝ} (he : e ≠ 0) :
    -(rotation r e).1 * r + (rotation r e).2 * e = 0 := by
  unfold rotation
  split_ifs with h
  · simp only
    field_simp
    ring
  · have hr : r ≠ 0 := by
      rintro rfl
      simp [he] at h
    simp only
    field_simp
    ring

theorem rotated_mul_add {sin cos : ℝ} (h : sin * sin + cos * cos = 1) (p q p' q' : ℝ) :
    (cos * p + sin * q) * (cos * p' + sin * q') +
      (-sin * p + cos * q) * (-sin * p' + cos * q') = p * p' + q * q' := by
  linear_combination (p * p' + q * q') * h

theorem dot_zipWith_combine (c s : ℝ) {a b : Vec ℝ} (h : a.length = b.length) (x : Vec ℝ) :
    Vec.dot (List.zipWith (fun r e => c * r + s * e) a b) x =
      c * Vec.dot a x + s * Vec.dot b x := by
  induction a generalizing b x with
  | nil =>
      have hb : b = [] := List.length_eq_zero_iff.mp h.symm
      simp [hb]
  | cons r a ih =>
      cases b with
      | nil => simp at h
      | cons e b =>
          cases x with
          | nil => simp
          | cons y x =>
              have hab : a.length = b.length := by simpa using h
              simp only [List.zipWith_cons_cons, Vec.dot_cons_cons, ih hab]
              ring

/-! ## One row -/

def Keeps (before after : List (Line ℝ × ℝ)) (rest : Vec ℝ → ℝ → Vec ℝ → ℝ → ℝ) : Prop :=
  after.length = before.length ∧ IsTriangle after ∧
    ∃ r, ∀ x y s u, x.length = before.length → y.length = before.length →
      Vec.dot (lineValues after x s) (lineValues after y u) + r * (s * u) =
        Vec.dot (lineValues before x s) (lineValues before y u) + rest x s y u

section Head

variable {l : Line ℝ} {b t e sin cos : ℝ} {row : Vec ℝ} {lines after : List (Line ℝ × ℝ)}

private theorem keeps_pass (htail : l.tail.length = lines.length)
    (h : Keeps lines after fun x s y u => (Vec.dot row x + t * s) * (Vec.dot row y + t * u)) :
    Keeps ((l, b) :: lines) ((l, b) :: after)
      fun x s y u => (Vec.dot (0 :: row) x + t * s) * (Vec.dot (0 :: row) y + t * u) := by
  obtain ⟨hlength, htriangle, r, hr⟩ := h
  refine ⟨by simp [hlength], ⟨by rw [htail, hlength], htriangle⟩, r, ?_⟩
  intro x y s u hx hy
  cases x with
  | nil => simp at hx
  | cons x₀ x =>
      cases y with
      | nil => simp at hy
      | cons y₀ y =>
          have := hr x y s u (by simpa using hx) (by simpa using hy)
          simp only [lineValues_cons, Vec.dot_cons_cons, zero_mul, zero_add]
          linarith

private theorem keeps_rotate (htail : l.tail.length = lines.length)
    (hrow : row.length = lines.length) (hone : sin * sin + cos * cos = 1)
    (hzero : -sin * l.diagonal + cos * e = 0)
    (h : Keeps lines after fun x s y u =>
      (Vec.dot (List.zipWith (fun r e => -sin * r + cos * e) l.tail row) x +
        (-sin * b + cos * t) * s) *
      (Vec.dot (List.zipWith (fun r e => -sin * r + cos * e) l.tail row) y +
        (-sin * b + cos * t) * u)) :
    Keeps ((l, b) :: lines)
      ((⟨cos * l.diagonal + sin * e, List.zipWith (fun r e => cos * r + sin * e) l.tail row⟩,
        cos * b + sin * t) :: after)
      fun x s y u => (Vec.dot (e :: row) x + t * s) * (Vec.dot (e :: row) y + t * u) := by
  obtain ⟨hlength, htriangle, r, hr⟩ := h
  have hll : l.tail.length = row.length := htail.trans hrow.symm
  refine ⟨by rw [List.length_cons, List.length_cons, hlength],
    ⟨by rw [hlength, List.length_zipWith, hll, Nat.min_self, hrow], htriangle⟩, r, ?_⟩
  intro x y s u hx hy
  cases x with
  | nil => simp at hx
  | cons x₀ x =>
      cases y with
      | nil => simp at hy
      | cons y₀ y =>
          have := hr x y s u (by simpa using hx) (by simpa using hy)
          simp only [lineValues_cons, Vec.dot_cons_cons, dot_zipWith_combine _ _ hll] at this ⊢
          have plane := rotated_mul_add hone
            (l.diagonal * x₀ + Vec.dot l.tail x + b * s) (e * x₀ + Vec.dot row x + t * s)
            (l.diagonal * y₀ + Vec.dot l.tail y + b * u) (e * y₀ + Vec.dot row y + t * u)
          -- the first coordinate has left the row
          have hx₀ : -sin * (l.diagonal * x₀) + cos * (e * x₀) = 0 := by
            linear_combination x₀ * hzero
          have hy₀ : -sin * (l.diagonal * y₀) + cos * (e * y₀) = 0 := by
            linear_combination y₀ * hzero
          linear_combination this + plane -
            (-sin * (Vec.dot l.tail y + b * u) + cos * (Vec.dot row y + t * u)) * hx₀ -
            (-sin * (l.diagonal * x₀ + Vec.dot l.tail x + b * s) +
              cos * (e * x₀ + Vec.dot row x + t * s)) * hy₀

end Head

theorem keeps_absorb {lines : List (Line ℝ × ℝ)} (htriangle : IsTriangle lines) (row : Vec ℝ)
    (hrow : row.length = lines.length) (t : ℝ) :
    Keeps lines (absorb lines row t)
      fun x s y u => (Vec.dot row x + t * s) * (Vec.dot row y + t * u) := by
  induction lines generalizing row t with
  | nil =>
      have hrow : row = [] := List.length_eq_zero_iff.mp hrow
      subst hrow
      refine ⟨by simp [absorb], by simp [absorb, IsTriangle], t * t, ?_⟩
      intro x y s u _ _
      simp only [absorb, lineValues_nil, Vec.dot_nil_left]
      ring
  | cons line lines ih =>
      obtain ⟨l, b⟩ := line
      cases row with
      | nil => simp at hrow
      | cons e row =>
          have hlength : row.length = lines.length := by simpa using hrow
          obtain ⟨htail, htriangle⟩ := htriangle
          by_cases he : e = 0
          · subst he
            have habsorb : absorb ((l, b) :: lines) (0 :: row) t =
                (l, b) :: absorb lines row t := by
              simp [absorb]
            rw [habsorb]
            exact keeps_pass htail (ih htriangle row hlength t)
          · have hone := rotation_mul_self l.diagonal e
            have hzero := rotation_annihilates l.diagonal he
            generalize hsin : (rotation l.diagonal e).1 = sin at hone hzero
            generalize hcos : (rotation l.diagonal e).2 = cos at hone hzero
            have habsorb : absorb ((l, b) :: lines) (e :: row) t =
                (⟨cos * l.diagonal + sin * e,
                  List.zipWith (fun r e => cos * r + sin * e) l.tail row⟩, cos * b + sin * t) ::
                  absorb lines (List.zipWith (fun r e => -sin * r + cos * e) l.tail row)
                    (-sin * b + cos * t) := by
              simp [absorb, he, hsin, hcos]
            rw [habsorb]
            exact keeps_rotate htail hlength hone hzero
              (ih htriangle _ (by simp [htail, hlength]) (-sin * b + cos * t))

/-! ## The rows of a diagonal -/

private theorem keeps_absorb_first {line : Line ℝ × ℝ} {lines : List (Line ℝ × ℝ)}
    (htriangle : IsTriangle (line :: lines)) (d₀ : ℝ) (d : Vec ℝ) :
    ∃ after afters, absorbDiagonal (d₀ :: d) (line :: lines) = after :: absorbDiagonal d afters ∧
      Keeps (line :: lines) (after :: afters)
        fun x _ y _ => d₀ * x.headD 0 * (d₀ * y.headD 0) := by
  by_cases hd₀ : d₀ = 0
  · refine ⟨line, lines, by simp [absorbDiagonal, hd₀], rfl, htriangle, 0, ?_⟩
    intro x y s u _ _
    simp [hd₀]
  · obtain ⟨hlength, htriangle', r, hr⟩ := keeps_absorb htriangle
      (d₀ :: Vec.zeros lines.length) (by simp) 0
    cases habsorb : absorb (line :: lines) (d₀ :: Vec.zeros lines.length) 0 with
    | nil => simp [habsorb] at hlength
    | cons after afters =>
        rw [habsorb] at hlength htriangle' hr
        refine ⟨after, afters, by simp [absorbDiagonal, hd₀, habsorb], hlength, htriangle', r, ?_⟩
        intro x y s u hx hy
        rw [hr x y s u hx hy]
        cases x with
        | nil => simp at hx
        | cons x₀ x =>
            cases y with
            | nil => simp at hy
            | cons y₀ y => simp

theorem keeps_absorbDiagonal {lines : List (Line ℝ × ℝ)} (htriangle : IsTriangle lines)
    (d : Vec ℝ) (hd : d.length = lines.length) :
    Keeps lines (absorbDiagonal d lines)
      fun x _ y _ => Vec.dot (Vec.mul d x) (Vec.mul d y) := by
  induction d generalizing lines with
  | nil =>
      have hlines : lines = [] := List.length_eq_zero_iff.mp hd.symm
      subst hlines
      refine ⟨by simp [absorbDiagonal], by simp [absorbDiagonal, IsTriangle], 0, ?_⟩
      intro x y s u _ _
      simp [absorbDiagonal, Vec.mul]
  | cons d₀ d ih =>
      cases lines with
      | nil => simp at hd
      | cons line lines =>
          have hd : d.length = lines.length := by simpa using hd
          obtain ⟨⟨l, b⟩, afters, hafter, hlength, ⟨htail, htriangle₁⟩, r, hr⟩ :=
            keeps_absorb_first htriangle d₀ d
          have hlength : afters.length = lines.length := by simpa using hlength
          obtain ⟨hlength', htriangle₂, r', hr'⟩ := ih htriangle₁ (hd.trans hlength.symm)
          rw [hafter]
          refine ⟨by simp [hlength, hlength'], ⟨by rw [htail, hlength'], htriangle₂⟩, r + r', ?_⟩
          intro x y s u hx hy
          cases x with
          | nil => simp at hx
          | cons x₀ x =>
              cases y with
              | nil => simp at hy
              | cons y₀ y =>
                  have hfirst := hr (x₀ :: x) (y₀ :: y) s u hx hy
                  have hothers := hr' x y s u (by simpa [hlength] using hx)
                    (by simpa [hlength] using hy)
                  simp only [lineValues_cons, Vec.dot_cons_cons, Vec.mul, List.headD_cons,
                    List.zipWith_cons_cons] at hfirst hothers ⊢
                  linear_combination hfirst + hothers

end DampedSystem

end Minima
