import Mathlib

/-!
# Rounding to double precision

A real number is rounded on the grid of the doubles of its size: multiples of a
power of two that leaves 53 binary digits, or of the smallest positive double
where that is coarser.  Ties go to the even multiple, and what reaches `2 ^ 1024`
becomes infinite.  Rounding is monotone and leaves the grid in place.
-/

namespace Minima.Double

/-! ## To an integer -/

/-- The natural number nearest to `y`, the even one of two. -/
noncomputable def nearest (y : ℝ) : ℕ :=
  if y < ⌊y⌋₊ + 1 / 2 then ⌊y⌋₊
  else if y = ⌊y⌋₊ + 1 / 2 then ⌊y⌋₊ + ⌊y⌋₊ % 2
  else ⌊y⌋₊ + 1

theorem floor_le_nearest (y : ℝ) : ⌊y⌋₊ ≤ nearest y := by
  unfold nearest
  split_ifs <;> omega

theorem nearest_le_floor_add_one (y : ℝ) : nearest y ≤ ⌊y⌋₊ + 1 := by
  unfold nearest
  split_ifs <;> omega

@[simp] theorem nearest_natCast (n : ℕ) : nearest n = n := by
  simp [nearest]

theorem nearest_mono {x y : ℝ} (h : x ≤ y) : nearest x ≤ nearest y := by
  have hfloor : ⌊x⌋₊ ≤ ⌊y⌋₊ := Nat.floor_mono h
  obtain hlt | heq := hfloor.lt_or_eq
  · exact (nearest_le_floor_add_one x).trans (hlt.trans_le (floor_le_nearest y))
  -- between the same two integers the order of the halves decides
  obtain hx | hx | hx := lt_trichotomy x (⌊x⌋₊ + 1 / 2)
  · rw [nearest, if_pos hx, heq]
    exact floor_le_nearest y
  · obtain rfl | hlt := h.eq_or_lt
    · rfl
    · have hy : (⌊y⌋₊ : ℝ) + 1 / 2 < y := by rwa [← heq, ← hx]
      rw [nearest, nearest, if_neg hx.not_lt, if_pos hx, if_neg hy.not_gt, if_neg hy.ne', heq]
      omega
  · have hy : (⌊y⌋₊ : ℝ) + 1 / 2 < y := by
      rw [← heq]
      exact hx.trans_le h
    rw [nearest, nearest, if_neg hx.not_gt, if_neg hx.ne', if_neg hy.not_gt, if_neg hy.ne', heq]

/-! ## The grid -/

noncomputable abbrev dyadic (m : ℕ) (e : ℤ) : ℝ := m * 2 ^ e

/-- The exponent of the grid at a positive number. -/
noncomputable def gridExponent (x : ℝ) : ℤ := max (Int.log 2 x - 52) (-1074)

noncomputable def roundMagnitude (x : ℝ) : ℝ :=
  nearest (x / 2 ^ gridExponent x) * 2 ^ gridExponent x

theorem gridExponent_mono {x y : ℝ} (hx : 0 < x) (h : x ≤ y) :
    gridExponent x ≤ gridExponent y :=
  max_le_max_right _ (Int.sub_le_sub_right (Int.log_mono_right hx h) _)

theorem div_grid_lt (x : ℝ) : x / 2 ^ gridExponent x < 2 ^ 53 := by
  have hlog : x < 2 ^ (Int.log 2 x + 1) := by
    simpa using Int.lt_zpow_succ_log_self (b := 2) (by norm_num) x
  have hgrid : (2 : ℝ) ^ (Int.log 2 x + 1) ≤ 2 ^ (53 + gridExponent x) := by
    apply zpow_le_zpow_right₀ (by norm_num)
    have := le_max_left (Int.log 2 x - 52) (-1074)
    unfold gridExponent
    omega
  rw [div_lt_iff₀ (by positivity)]
  calc x < 2 ^ (Int.log 2 x + 1) := hlog
    _ ≤ 2 ^ (53 + gridExponent x) := hgrid
    _ = 2 ^ 53 * 2 ^ gridExponent x := by
      rw [zpow_add₀ (by norm_num)]
      norm_num

theorem le_div_grid {x : ℝ} (hx : 0 < x) (h : -1074 < gridExponent x) :
    2 ^ 52 ≤ x / 2 ^ gridExponent x := by
  have hgrid : gridExponent x = Int.log 2 x - 52 := by
    unfold gridExponent at h ⊢
    omega
  have hlog : (2 : ℝ) ^ Int.log 2 x ≤ x := by
    simpa using Int.zpow_log_le_self (b := 2) (by norm_num) hx
  rw [le_div_iff₀ (by positivity), hgrid, zpow_sub₀ (by norm_num)]
  norm_num
  linarith

theorem nearest_grid_le (x : ℝ) : nearest (x / 2 ^ gridExponent x) ≤ 2 ^ 53 := by
  have := nearest_mono (div_grid_lt x).le
  rwa [show ((2 : ℝ) ^ 53) = ((2 ^ 53 : ℕ) : ℝ) by norm_num, nearest_natCast] at this

theorem le_nearest_grid {x : ℝ} (hx : 0 < x) (h : -1074 < gridExponent x) :
    2 ^ 52 ≤ nearest (x / 2 ^ gridExponent x) := by
  have := nearest_mono (le_div_grid hx h)
  rwa [show ((2 : ℝ) ^ 52) = ((2 ^ 52 : ℕ) : ℝ) by norm_num, nearest_natCast] at this

@[simp] theorem roundMagnitude_zero : roundMagnitude 0 = 0 := by
  simp [roundMagnitude, nearest]

theorem roundMagnitude_nonneg (x : ℝ) : 0 ≤ roundMagnitude x := by
  unfold roundMagnitude
  positivity

theorem roundMagnitude_of_mem_grid {x : ℝ} {m : ℕ} (h : x = m * 2 ^ gridExponent x) :
    roundMagnitude x = x := by
  have hdiv : x / 2 ^ gridExponent x = m := by
    rw [div_eq_iff (by positivity)]
    exact h
  rw [roundMagnitude, hdiv, nearest_natCast]
  exact h.symm

theorem roundMagnitude_mono {x y : ℝ} (hx : 0 ≤ x) (h : x ≤ y) :
    roundMagnitude x ≤ roundMagnitude y := by
  obtain rfl | hx := hx.eq_or_lt
  · simpa using roundMagnitude_nonneg y
  obtain heq | hlt := (gridExponent_mono hx h).eq_or_lt
  · unfold roundMagnitude
    rw [heq]
    have :=
      nearest_mono (div_le_div_of_nonneg_right h (by positivity : (0 : ℝ) ≤ 2 ^ gridExponent y))
    gcongr
  · -- the power of two at the lower end of the coarser grid lies between
    have hy := hx.trans_le h
    have hcoarse : -1074 < gridExponent y := (le_max_right _ _).trans_lt hlt
    calc roundMagnitude x ≤ (2 ^ 53 : ℕ) * 2 ^ gridExponent x := by
          unfold roundMagnitude
          have := nearest_grid_le x
          gcongr
      _ = 2 ^ (53 + gridExponent x) := by
          rw [zpow_add₀ (by norm_num)]
          norm_num
      _ ≤ 2 ^ (52 + gridExponent y) := by
          apply zpow_le_zpow_right₀ (by norm_num)
          omega
      _ = (2 ^ 52 : ℕ) * 2 ^ gridExponent y := by
          rw [zpow_add₀ (by norm_num)]
          norm_num
      _ ≤ roundMagnitude y := by
          unfold roundMagnitude
          have := le_nearest_grid hy hcoarse
          gcongr

/-! ## Overflow and signs -/

noncomputable def overflow (x : ℝ) : EReal := if x < 2 ^ 1024 then x else ⊤

theorem overflow_mono {x y : ℝ} (h : x ≤ y) : overflow x ≤ overflow y := by
  unfold overflow
  split_ifs with hx hy
  · exact EReal.coe_le_coe_iff.mpr h
  · exact le_top
  · exact absurd (h.trans_lt ‹y < _›) hx
  · exact le_rfl

theorem overflow_nonneg {x : ℝ} (h : 0 ≤ x) : 0 ≤ overflow x := by
  unfold overflow
  split_ifs
  · exact EReal.coe_nonneg.mpr h
  · exact le_top

noncomputable def roundReal (x : ℝ) : EReal :=
  if x < 0 then -overflow (roundMagnitude (-x)) else overflow (roundMagnitude x)

noncomputable def round : EReal → EReal
  | ⊥ => ⊥
  | ⊤ => ⊤
  | (x : ℝ) => roundReal x

@[simp] theorem round_bot : round ⊥ = ⊥ := rfl

@[simp] theorem round_top : round ⊤ = ⊤ := rfl

@[simp] theorem round_coe (x : ℝ) : round x = roundReal x := rfl

theorem roundReal_of_nonneg {x : ℝ} (h : 0 ≤ x) : roundReal x = overflow (roundMagnitude x) :=
  if_neg h.not_gt

theorem roundReal_neg (x : ℝ) : roundReal (-x) = -roundReal x := by
  unfold roundReal
  obtain h | rfl | h := lt_trichotomy x 0
  · simp [h, h.not_gt]
  · simp [overflow]
  · simp [h, h.not_gt]

theorem roundReal_mono {x y : ℝ} (h : x ≤ y) : roundReal x ≤ roundReal y := by
  obtain hx | hx := lt_or_ge x 0
  · obtain hy | hy := lt_or_ge y 0
    · rw [roundReal, if_pos hx, roundReal, if_pos hy, EReal.neg_le_neg_iff]
      exact overflow_mono (roundMagnitude_mono (by linarith) (by linarith))
    · rw [roundReal, if_pos hx, roundReal_of_nonneg hy]
      have hneg := EReal.neg_le_neg_iff.mpr (overflow_nonneg (roundMagnitude_nonneg (-x)))
      rw [neg_zero] at hneg
      exact hneg.trans (overflow_nonneg (roundMagnitude_nonneg y))
  · rw [roundReal_of_nonneg hx, roundReal_of_nonneg (hx.trans h)]
    exact overflow_mono (roundMagnitude_mono hx h)

theorem round_mono {x y : EReal} (h : x ≤ y) : round x ≤ round y := by
  induction x with
  | bot => exact bot_le
  | top => rw [top_le_iff.mp h]
  | coe x =>
      induction y with
      | bot => simp at h
      | top => exact le_top
      | coe y => exact roundReal_mono (EReal.coe_le_coe_iff.mp h)

@[simp] theorem round_zero : round 0 = 0 := by
  have h : roundReal 0 = 0 := by
    simp [roundReal, overflow]
  exact h

@[simp] theorem round_one : round 1 = 1 := by
  have hgrid : gridExponent 1 = -52 := by
    simp [gridExponent]
  have hone : roundMagnitude 1 = 1 := by
    apply roundMagnitude_of_mem_grid (m := 2 ^ 52)
    rw [hgrid]
    norm_num
  have h : roundReal 1 = 1 := by
    rw [roundReal_of_nonneg zero_le_one, hone, overflow,
      if_pos (one_lt_pow₀ one_lt_two (by decide))]
    rfl
  exact h

theorem round_nonneg {x : EReal} (h : 0 ≤ x) : 0 ≤ round x := by
  rw [← round_zero]
  exact round_mono h

theorem pos_of_round_pos {x : EReal} (h : 0 < round x) : 0 < x := by
  by_contra hx
  have hround := round_mono (not_lt.mp hx)
  rw [round_zero] at hround
  exact h.not_ge hround

end Minima.Double
