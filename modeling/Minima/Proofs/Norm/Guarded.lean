import Minima.Proofs.Exact.Ordered
import Minima.Proofs.Exact.Partial
import Minima.Proofs.Norm

/-!
# The guarded norm in exact arithmetic

Each of the two outer sums is in units of the square of the largest coordinate of its kind, in
whatever order the coordinates come.  So the guarded norm is the root of the sum of the squares,
without the small ones if there is a large coordinate, and it divides by no zero.
-/

namespace Minima

namespace GuardedSums

variable {limit x : ℝ} {v : Vec ℝ} {s : GuardedSums ℝ}

/-! ## Kinds of coordinates -/

def IsSmall (x : ℝ) : Prop := |x| ≤ lowerBound

def IsLarge (limit x : ℝ) : Prop := limit ≤ |x|

def IsMedium (limit x : ℝ) : Prop := lowerBound < |x| ∧ |x| < limit

open Classical in
noncomputable def squares (kind : ℝ → Prop) (v : Vec ℝ) : ℝ := ((v.filter kind).map (· ^ 2)).sum

/-! ## One sum -/

/-- A sum of squares in units of the square of the largest root. -/
structure Scaled (largest sum total : ℝ) : Prop where
  largest_nonneg : 0 ≤ largest
  sum_nonneg : 0 ≤ sum
  sum_eq_zero : largest = 0 → sum = 0
  sq_mul : largest ^ 2 * sum = total

variable {largest sum total a : ℝ}

theorem Scaled.raise (h : Scaled largest sum total) (ha : largest < a) :
    Scaled a (1 + sum * Scalar.square (largest / a)) (total + a ^ 2) := by
  have hpos : 0 < a := h.largest_nonneg.trans_lt ha
  have hsquare : 0 ≤ Scalar.square (largest / a) := mul_self_nonneg _
  refine ⟨hpos.le, by linarith [mul_nonneg h.sum_nonneg hsquare],
    fun hzero => absurd hzero hpos.ne', ?_⟩
  rw [← h.sq_mul, Scalar.square]
  field_simp
  ring

theorem Scaled.add (h : Scaled largest sum total) (ha : ¬ largest < a) (hpos : 0 < a) :
    Scaled largest (sum + Scalar.square (a / largest)) (total + a ^ 2) := by
  have hlargest : 0 < largest := hpos.trans_le (not_lt.mp ha)
  have hsquare : 0 ≤ Scalar.square (a / largest) := mul_self_nonneg _
  refine ⟨hlargest.le, add_nonneg h.sum_nonneg hsquare, fun hzero => absurd hzero hlargest.ne', ?_⟩
  rw [← h.sq_mul, Scalar.square]
  field_simp

/-! ## All sums -/

structure Totals (limit : ℝ) (v : Vec ℝ) (s : GuardedSums ℝ) : Prop where
  large : Scaled s.largest s.large (squares (IsLarge limit) v)
  medium : s.medium = squares (IsMedium limit) v
  small : Scaled s.smallest s.small (squares IsSmall v)

theorem squares_concat {kind : ℝ → Prop} (h : kind x) (v : Vec ℝ) :
    squares kind (v ++ [x]) = squares kind v + |x| ^ 2 := by
  simp [squares, h]

theorem squares_concat_of_not {kind : ℝ → Prop} (h : ¬ kind x) (v : Vec ℝ) :
    squares kind (v ++ [x]) = squares kind v := by
  simp [squares, h]

theorem lowerBound_pos : (0 : ℝ) < lowerBound := by
  norm_num [lowerBound]

theorem Totals.add_medium (h : Totals limit v s) (hx : IsMedium limit x) :
    Totals limit (v ++ [x]) { s with medium := s.medium + |x| * |x| } := by
  have hlarge : ¬ IsLarge limit x := not_le.mpr hx.2
  have hsmall : ¬ IsSmall x := not_le.mpr hx.1
  refine ⟨?_, ?_, ?_⟩
  · rw [squares_concat_of_not hlarge]
    exact h.large
  · rw [squares_concat hx, h.medium, sq]
  · rw [squares_concat_of_not hsmall]
    exact h.small

theorem Totals.add_small (h : Totals limit v s) (hlimit : lowerBound < limit) (hx : IsSmall x)
    {smallest small : ℝ} (hsmall : Scaled smallest small (squares IsSmall v + |x| ^ 2)) :
    Totals limit (v ++ [x]) { s with smallest, small } := by
  have hlarge : ¬ IsLarge limit x := not_le.mpr (lt_of_le_of_lt hx hlimit)
  have hmedium : ¬ IsMedium limit x := fun h => not_lt.mpr hx h.1
  refine ⟨?_, ?_, ?_⟩
  · rw [squares_concat_of_not hlarge]
    exact h.large
  · rw [squares_concat_of_not hmedium]
    exact h.medium
  · rw [squares_concat hx]
    exact hsmall

theorem Totals.add_large (h : Totals limit v s) (hlimit : lowerBound < limit) (hx : IsLarge limit x)
    {largest large : ℝ} (hlarge : Scaled largest large (squares (IsLarge limit) v + |x| ^ 2)) :
    Totals limit (v ++ [x]) { s with largest, large } := by
  have hsmall : ¬ IsSmall x := not_le.mpr (lt_of_lt_of_le hlimit hx)
  have hmedium : ¬ IsMedium limit x := fun h => not_lt.mpr hx h.2
  refine ⟨?_, ?_, ?_⟩
  · rw [squares_concat hx]
    exact hlarge
  · rw [squares_concat_of_not hmedium]
    exact h.medium
  · rw [squares_concat_of_not hsmall]
    exact h.small

theorem Totals.add (h : Totals limit v s) (hlimit : lowerBound < limit) (x : ℝ) :
    Totals limit (v ++ [x]) (s.add limit x) := by
  unfold GuardedSums.add
  simp only [Scalar.abs_real, Scalar.isZero_real, decide_eq_true_eq]
  split
  case isTrue hmedium => exact h.add_medium hmedium
  split
  case isTrue hsmall =>
    split
    case isTrue hraise => exact h.add_small hlimit hsmall (h.small.raise hraise)
    split
    case isTrue hzero =>
      refine h.add_small hlimit hsmall ?_
      rw [hzero, sq, zero_mul, add_zero]
      exact h.small
    case isFalse hraise hzero =>
      have hpos : 0 < |x| := lt_of_le_of_ne (abs_nonneg x) (Ne.symm hzero)
      exact h.add_small hlimit hsmall (h.small.add hraise hpos)
  case isFalse hmedium hsmall =>
    have hx : lowerBound < |x| := not_le.mp hsmall
    have hlarge : IsLarge limit x := not_lt.mp fun hlt => hmedium ⟨hx, hlt⟩
    split
    case isTrue hraise => exact h.add_large hlimit hlarge (h.large.raise hraise)
    case isFalse hraise =>
      exact h.add_large hlimit hlarge (h.large.add hraise (lowerBound_pos.trans hx))

theorem totals_foldl (hlimit : lowerBound < limit) (v : Vec ℝ) :
    Totals limit v (v.foldl (GuardedSums.add limit) ⟨0, 0, 0, 0, 0⟩) := by
  induction v using List.reverseRecOn with
  | nil =>
      have hnone (kind : ℝ → Prop) : Scaled 0 0 (squares kind []) :=
        ⟨le_rfl, le_rfl, fun _ => rfl, by simp [squares]⟩
      exact ⟨hnone _, rfl, hnone _⟩
  | append_singleton v x ih =>
      rw [List.foldl_concat]
      exact ih.add hlimit x

/-! ## The root -/

theorem squares_nonneg (kind : ℝ → Prop) (v : Vec ℝ) : 0 ≤ squares kind v := by
  refine List.sum_nonneg fun a ha => ?_
  obtain ⟨x, -, rfl⟩ := List.mem_map.mp ha
  exact sq_nonneg x

theorem Scaled.largest_pos (h : Scaled largest sum total) (hsum : sum ≠ 0) : 0 < largest :=
  lt_of_le_of_ne h.largest_nonneg fun hzero => hsum (h.sum_eq_zero hzero.symm)

theorem Totals.medium_nonneg (h : Totals limit v s) : 0 ≤ s.medium :=
  h.medium ▸ squares_nonneg _ v

theorem Totals.radicands_nonneg (h : Totals limit v s) :
    0 ≤ s.large + s.medium / s.largest / s.largest ∧
      0 ≤ s.medium * (1 + s.smallest / s.medium * (s.smallest * s.small)) ∧
      0 ≤ s.smallest * (s.medium / s.smallest + s.smallest * s.small) := by
  have hmedium := h.medium_nonneg
  have hlarge := h.large.sum_nonneg
  have hlargest := h.large.largest_nonneg
  have hsmall := h.small.sum_nonneg
  have hsmallest := h.small.largest_nonneg
  exact ⟨by positivity, by positivity, by positivity⟩

theorem Totals.root_of_large (h : Totals limit v s) (hlarge : s.large ≠ 0) :
    s.root ^ 2 = squares (IsLarge limit) v + squares (IsMedium limit) v := by
  have hpos := h.large.largest_pos hlarge
  have hroot : s.root = s.largest * √(s.large + s.medium / s.largest / s.largest) :=
    if_pos (by simpa using hlarge)
  rw [hroot, mul_pow, Real.sq_sqrt h.radicands_nonneg.1, ← h.large.sq_mul, ← h.medium]
  field_simp

/-- Without one the medium and the small ones are brought to the unit of the greater sum. -/
theorem Totals.root_of_not_large (h : Totals limit v s) (hlarge : s.large = 0) :
    s.root ^ 2 = squares (IsMedium limit) v + squares IsSmall v := by
  have hroot : s.root = if !Scalar.isZero s.medium then
      if s.smallest ≤ s.medium then
        √(s.medium * (1 + s.smallest / s.medium * (s.smallest * s.small)))
      else √(s.smallest * (s.medium / s.smallest + s.smallest * s.small))
    else s.smallest * √s.small := if_neg (by simpa using hlarge)
  obtain ⟨-, hmediumUnit, hsmallUnit⟩ := h.radicands_nonneg
  rw [hroot, ← h.small.sq_mul, ← h.medium]
  split
  case isTrue hmedium =>
    have hpos : 0 < s.medium :=
      lt_of_le_of_ne h.medium_nonneg (Ne.symm (by simpa using hmedium))
    split
    case isTrue hle =>
      rw [Real.sq_sqrt hmediumUnit]
      field_simp
    case isFalse hlt =>
      have hsmallest : 0 < s.smallest := hpos.trans (not_le.mp hlt)
      rw [Real.sq_sqrt hsmallUnit]
      field_simp
  case isFalse hmedium =>
    have hzero : s.medium = 0 := by simpa using hmedium
    rw [hzero, zero_add, mul_pow, Real.sq_sqrt h.small.sum_nonneg]

/-! ## Whether a large coordinate was seen -/

theorem squares_eq_zero_iff (kind : ℝ → Prop) (v : Vec ℝ) :
    squares kind v = 0 ↔ ∀ x ∈ v, kind x → x = 0 := by
  induction v using List.reverseRecOn with
  | nil => simp [squares]
  | append_singleton v x ih =>
      rw [List.forall_mem_append, ← ih]
      by_cases hx : kind x
      · rw [squares_concat hx, add_eq_zero_iff_of_nonneg (squares_nonneg kind v) (sq_nonneg _)]
        simp [hx]
      · rw [squares_concat_of_not hx]
        simp [hx]

theorem Totals.large_eq_zero_iff (h : Totals limit v s) (hlimit : lowerBound < limit) :
    s.large = 0 ↔ ∀ x ∈ v, ¬ IsLarge limit x := by
  have hsquares : s.large = 0 ↔ squares (IsLarge limit) v = 0 := by
    rw [← h.large.sq_mul, mul_eq_zero, pow_eq_zero_iff two_ne_zero]
    exact ⟨Or.inr, fun hzero => hzero.elim h.large.sum_eq_zero id⟩
  rw [hsquares, squares_eq_zero_iff]
  refine forall₂_congr fun x _ => ⟨fun hzero hlarge => ?_, fun hnot hlarge => absurd hlarge hnot⟩
  have hpos : 0 < |x| := lowerBound_pos.trans (lt_of_lt_of_le hlimit hlarge)
  exact abs_pos.mp hpos (hzero hlarge)

theorem squares_add {p q : ℝ → Prop} (hpq : ∀ x, p x → ¬ q x) (v : Vec ℝ) :
    squares p v + squares q v = squares (fun x => p x ∨ q x) v := by
  induction v using List.reverseRecOn with
  | nil => simp [squares]
  | append_singleton v x ih =>
      by_cases hp : p x
      · rw [squares_concat hp, squares_concat_of_not (hpq x hp), squares_concat (.inl hp), ← ih]
        ring
      · by_cases hq : q x
        · rw [squares_concat_of_not hp, squares_concat hq, squares_concat (.inr hq), ← ih]
          ring
        · rw [squares_concat_of_not hp, squares_concat_of_not hq,
            squares_concat_of_not (not_or.mpr ⟨hp, hq⟩), ih]

theorem squares_eq_sum {kind : ℝ → Prop} (h : ∀ x ∈ v, kind x) :
    squares kind v = (v.map (· ^ 2)).sum := by
  classical
  rw [squares, List.filter_eq_self.mpr]
  exact fun x hx => decide_eq_true (h x hx)

/-! ## Divisors -/

/-- The same sums in the arithmetic with undefined quotients. -/
@[simps]
def exact (s : GuardedSums ℝ) : GuardedSums Partial where
  large := .exact s.large
  medium := .exact s.medium
  small := .exact s.small
  largest := .exact s.largest
  smallest := .exact s.smallest

open Partial

theorem lowerBound_exact : (lowerBound : Partial) = .exact lowerBound := rfl

theorem upperBound_exact {n : Nat} (hn : n ≠ 0) :
    (upperBound n : Partial) = .exact (upperBound n) :=
  exact_div (Nat.cast_ne_zero.mpr hn)

theorem add_exact (hlargest : 0 ≤ s.largest) (hsmallest : 0 ≤ s.smallest) (limit x : ℝ) :
    s.exact.add (.exact limit) (.exact x) = (s.add limit x).exact := by
  unfold GuardedSums.add
  simp only [abs_exact, lowerBound_exact, exact_lt, exact_le, isZero_exact, one_eq, Scalar.abs_real,
    Scalar.isZero_real, exact_smallest, exact_largest]
  split_ifs with hmedium hsmall hraise hzero hraise
  · rfl
  · rw [exact_div (hsmallest.trans_lt hraise).ne']
    rfl
  · rfl
  · have hx : 0 < |x| := lt_of_le_of_ne (abs_nonneg x) (Ne.symm (by simpa using hzero))
    rw [exact_div (hx.trans_le (not_lt.mp hraise)).ne']
    rfl
  · rw [exact_div (hlargest.trans_lt hraise).ne']
    rfl
  · have hx : 0 < |x| := lowerBound_pos.trans (not_le.mp hsmall)
    rw [exact_div (hx.trans_le (not_lt.mp hraise)).ne']
    rfl

theorem foldl_exact (hlimit : lowerBound < limit) (v : Vec ℝ) :
    (v.map Partial.exact).foldl (GuardedSums.add (.exact limit)) ⟨0, 0, 0, 0, 0⟩ =
      (v.foldl (GuardedSums.add limit) ⟨0, 0, 0, 0, 0⟩).exact := by
  induction v using List.reverseRecOn with
  | nil => rfl
  | append_singleton v x ih =>
      have h := totals_foldl hlimit v
      rw [List.map_append, List.map_singleton, List.foldl_concat, List.foldl_concat, ih,
        add_exact h.large.largest_nonneg h.small.largest_nonneg]

theorem Totals.root_exact (h : Totals limit v s) : s.exact.root = .exact s.root := by
  obtain ⟨hlargeUnit, hmediumUnit, hsmallUnit⟩ := h.radicands_nonneg
  unfold root
  simp only [isZero_exact, exact_le, one_eq, Scalar.isZero_real, exact_large, exact_medium,
    exact_small, exact_largest, exact_smallest]
  split_ifs with hlarge hmedium hle
  · have hpos := h.large.largest_pos (by simpa using hlarge)
    rw [exact_div hpos.ne', exact_div hpos.ne', exact_add, sqrt_exact hlargeUnit]
    rfl
  · have hne : s.medium ≠ 0 := by simpa using hmedium
    rw [exact_div hne, exact_mul, exact_mul, exact_add, exact_mul, sqrt_exact hmediumUnit]
    rfl
  · have hpos : 0 < s.smallest := h.medium_nonneg.trans_lt (not_le.mp hle)
    rw [exact_div hpos.ne', exact_mul, exact_add, exact_mul, sqrt_exact hsmallUnit]
    rfl
  · rw [sqrt_exact h.small.sum_nonneg]
    rfl

end GuardedSums

/-! ## The norm -/

open GuardedSums

/-- Provided that not every coordinate which is not small is large, the guarded norm is the length
of the vector, or of its part without the small coordinates if one is large.  Computed with
undefined quotients, the bound, the sums after each coordinate and the norm are the same. -/
theorem Norm.guarded_sq (v : Vec ℝ) (hv : v ≠ [])
    (hlength : (lowerBound : ℝ) < upperBound v.length) :
    0 ≤ Norm.guarded.length v ∧
      ((∀ x ∈ v, ¬ IsLarge (upperBound v.length) x) →
        Norm.guarded.length v ^ 2 = (v.map (· ^ 2)).sum) ∧
      ((∃ x ∈ v, IsLarge (upperBound v.length) x) →
        Norm.guarded.length v ^ 2 = squares
          (fun x => IsLarge (upperBound v.length) x ∨ IsMedium (upperBound v.length) x) v) ∧
      (upperBound v.length : Partial) = .exact (upperBound v.length) ∧
      (∀ k, ((v.take k).map Partial.exact).foldl (GuardedSums.add (upperBound v.length))
          ⟨0, 0, 0, 0, 0⟩ =
        ((v.take k).foldl (GuardedSums.add (upperBound v.length)) ⟨0, 0, 0, 0, 0⟩).exact) ∧
      Norm.guarded.length (v.map Partial.exact) = .exact (Norm.guarded.length v) := by
  have h := totals_foldl hlength v
  have hbound := upperBound_exact (mt List.length_eq_zero_iff.mp hv)
  have hlarge := h.large_eq_zero_iff hlength
  refine ⟨Norm.length_nonneg .guarded le_rfl, fun hnone => ?_, ?_, hbound, fun k => ?_, ?_⟩
  · have hkinds : ∀ x ∈ v, IsMedium (upperBound v.length) x ∨ IsSmall x := by
      intro x hx
      have hlt := not_le.mp (hnone x hx)
      exact (lt_or_ge lowerBound |x|).imp (fun hgt => ⟨hgt, hlt⟩) id
    have hdisjoint (x : ℝ) (hx : IsMedium (upperBound v.length) x) : ¬ IsSmall x := not_le.mpr hx.1
    exact (h.root_of_not_large (hlarge.mpr hnone)).trans
      ((squares_add hdisjoint v).trans (squares_eq_sum hkinds))
  · rintro ⟨y, hy, hyLarge⟩
    have hne := mt hlarge.mp fun hnone => hnone y hy hyLarge
    have hdisjoint (x : ℝ) (hx : IsLarge (upperBound v.length) x) :
        ¬ IsMedium (upperBound v.length) x := fun hmedium => not_lt.mpr hx hmedium.2
    exact (h.root_of_large hne).trans (squares_add hdisjoint v)
  · rw [hbound, foldl_exact hlength]
  · have hroot := h.root_exact
    rw [← foldl_exact hlength, ← hbound] at hroot
    simpa only [Norm.length, Vec.guardedNorm, List.length_map] using hroot

theorem Norm.guarded_sq_mixed :
    [(3e-20 : ℝ), 2e19, 3] ≠ [] ∧ (lowerBound : ℝ) < upperBound 3 ∧
      Norm.guarded.length [(3e-20 : ℝ), 2e19, 3] ^ 2 = 4e38 + 9 ∧
      Norm.guarded.length [(3e-20 : ℝ), 3] ^ 2 = 9e-40 + 9 := by
  have hthree : (lowerBound : ℝ) < upperBound 3 := by norm_num [lowerBound, upperBound]
  have htwo : (lowerBound : ℝ) < upperBound 2 := by norm_num [lowerBound, upperBound]
  obtain ⟨-, -, hlarge, -⟩ := Norm.guarded_sq [(3e-20 : ℝ), 2e19, 3] (List.cons_ne_nil _ _) hthree
  obtain ⟨-, hnone, -⟩ := Norm.guarded_sq [(3e-20 : ℝ), 3] (List.cons_ne_nil _ _) htwo
  refine ⟨List.cons_ne_nil _ _, hthree, (hlarge ⟨2e19, by simp, ?_⟩).trans ?_,
    (hnone ?_).trans ?_⟩
  · norm_num [IsLarge, upperBound]
  · norm_num [squares, List.filter, IsLarge, IsMedium, lowerBound, upperBound]
  · norm_num [IsLarge, upperBound]
  · norm_num

end Minima
