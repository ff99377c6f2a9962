import Minima.Proofs.Double.Rounding

/-!
# Numbers of at most 53 digits

What has at most 53 digits is not rounded.  A part of a difference, with the difference and the part
rounded, is no longer than the difference was before, if the part falls short of the whole by a
digit.
-/

namespace Minima.Double

/-! ## Numbers of at most 53 digits -/

theorem gridExponent_eq {x : ℝ} {e : ℤ} (he : -1074 ≤ e) (hle : 2 ^ 52 * 2 ^ e ≤ x)
    (hlt : x < 2 ^ 53 * 2 ^ e) : gridExponent x = e := by
  have hpos : 0 < x := lt_of_lt_of_le (by positivity) hle
  have hlog : Int.log 2 x = 52 + e := by
    apply le_antisymm
    · apply Int.lt_add_one_iff.mp
      rw [← Int.lt_zpow_iff_log_lt (by norm_num) hpos]
      calc x < 2 ^ 53 * 2 ^ e := hlt
        _ = ((2 : ℕ) : ℝ) ^ (52 + e + 1) := by
          rw [Nat.cast_ofNat, add_right_comm, zpow_add₀ (by norm_num)]
          norm_num
    · rw [← Int.zpow_le_iff_le_log (by norm_num) hpos]
      calc ((2 : ℕ) : ℝ) ^ (52 + e) = 2 ^ 52 * 2 ^ e := by
            rw [Nat.cast_ofNat, zpow_add₀ (by norm_num)]
            norm_num
        _ ≤ x := hle
  rw [gridExponent, hlog]
  omega

theorem gridExponent_le {x : ℝ} {e : ℤ} (he : -1074 ≤ e) (hx : 0 < x) (hlt : x < 2 ^ 53 * 2 ^ e) :
    gridExponent x ≤ e := by
  have hlog : Int.log 2 x < 53 + e := by
    rw [← Int.lt_zpow_iff_log_lt (by norm_num) hx]
    calc x < 2 ^ 53 * 2 ^ e := hlt
      _ = ((2 : ℕ) : ℝ) ^ (53 + e) := by
        rw [Nat.cast_ofNat, zpow_add₀ (by norm_num)]
        norm_num
  unfold gridExponent
  omega

/-- Numbers of at most 53 digits are not rounded. -/
theorem roundMagnitude_dyadic {m : ℕ} (hm : m ≤ 2 ^ 53) {e : ℤ} (he : -1074 ≤ e) :
    roundMagnitude (dyadic m e) = dyadic m e := by
  obtain rfl | hpos := Nat.eq_zero_or_pos m
  · simp [dyadic]
  have hx : 0 < dyadic m e := by positivity
  obtain hlt | rfl := hm.lt_or_eq
  · have hle := gridExponent_le he hx (mul_lt_mul_of_pos_right (by exact_mod_cast hlt)
      (by positivity))
    apply roundMagnitude_of_mem_grid (m := m * 2 ^ (e - gridExponent (dyadic m e)).toNat)
    have hsplit : e = ((e - gridExponent (dyadic m e)).toNat : ℤ) + gridExponent (dyadic m e) := by
      omega
    generalize (e - gridExponent (dyadic m e)).toNat = k at hsplit ⊢
    generalize gridExponent (dyadic m e) = g at hsplit ⊢
    rw [dyadic, hsplit, zpow_add₀ (by norm_num), zpow_natCast]
    push_cast
    ring
  · have hgrid : gridExponent (dyadic (2 ^ 53) e) = e + 1 := by
      apply gridExponent_eq (by omega)
      · rw [dyadic, zpow_add_one₀ (by norm_num)]
        push_cast
        exact le_of_eq (by ring)
      · rw [dyadic, zpow_add_one₀ (by norm_num)]
        push_cast
        have : (0 : ℝ) < 2 ^ e := by positivity
        linarith
    apply roundMagnitude_of_mem_grid (m := 2 ^ 52)
    rw [hgrid, dyadic, zpow_add_one₀ (by norm_num)]
    push_cast
    ring

theorem round_dyadic {m : ℕ} (hm : m ≤ 2 ^ 53) {e : ℤ} (he : -1074 ≤ e)
    (hlt : dyadic m e < 2 ^ 1024) : round (dyadic m e : EReal) = (dyadic m e : EReal) := by
  rw [round_coe, roundReal_of_nonneg (by positivity), roundMagnitude_dyadic hm he, overflow,
    if_pos hlt]

@[simp] theorem roundMagnitude_roundMagnitude (x : ℝ) :
    roundMagnitude (roundMagnitude x) = roundMagnitude x :=
  roundMagnitude_dyadic (nearest_grid_le x) (le_max_right _ _)

theorem roundMagnitude_mul_le {t : ℝ} (z : ℝ) (ht : 0 ≤ t) (hle : t ≤ 1) :
    roundMagnitude (t * roundMagnitude z) ≤ roundMagnitude z := by
  have hround := roundMagnitude_nonneg z
  calc roundMagnitude (t * roundMagnitude z) ≤ roundMagnitude (roundMagnitude z) :=
        roundMagnitude_mono (mul_nonneg ht hround) (mul_le_of_le_one_left hround hle)
    _ = roundMagnitude z := roundMagnitude_roundMagnitude z

/-! ## Parts of a rounded magnitude -/

def IsMultiple (x : ℝ) : Prop := ∃ k : ℤ, x = k * dyadic 1 (-1074)

theorem isMultiple_iff {x : ℝ} : IsMultiple x ↔ ∃ k : ℤ, x = k * 2 ^ (-1074 : ℤ) := by
  simp [IsMultiple, dyadic]

theorem isMultiple_dyadic (m : ℕ) {e : ℤ} (he : -1074 ≤ e) : IsMultiple (dyadic m e) := by
  obtain ⟨k, rfl⟩ : ∃ k : ℕ, e = k + -1074 := ⟨(e + 1074).toNat, by omega⟩
  refine isMultiple_iff.mpr ⟨m * 2 ^ k, ?_⟩
  rw [dyadic, zpow_add₀ (by norm_num), zpow_natCast]
  push_cast
  ring

theorem IsMultiple.neg {x : ℝ} (h : IsMultiple x) : IsMultiple (-x) := by
  obtain ⟨k, rfl⟩ := h
  refine ⟨-k, ?_⟩
  push_cast
  ring

theorem IsMultiple.sub {x y : ℝ} (hx : IsMultiple x) (hy : IsMultiple y) : IsMultiple (x - y) := by
  obtain ⟨k, rfl⟩ := hx
  obtain ⟨l, rfl⟩ := hy
  refine ⟨k - l, ?_⟩
  push_cast
  ring

/-- On the smallest grid nothing is rounded. -/
theorem roundMagnitude_of_isMultiple {z : ℝ} (hz : 0 ≤ z) (hmultiple : IsMultiple z)
    (hgrid : gridExponent z = -1074) : roundMagnitude z = z := by
  obtain ⟨k, hk⟩ := isMultiple_iff.mp hmultiple
  have hunit : (0 : ℝ) < 2 ^ (-1074 : ℤ) := by positivity
  have hnonneg : 0 ≤ k := by
    rw [hk, mul_nonneg_iff_of_pos_right hunit] at hz
    exact_mod_cast hz
  obtain ⟨m, rfl⟩ := Int.eq_ofNat_of_zero_le hnonneg
  apply roundMagnitude_of_mem_grid (m := m)
  rw [hgrid]
  exact_mod_cast hk

theorem nearest_eq_floor {y : ℝ} (h : y < ⌊y⌋₊ + 1 / 2) : nearest y = ⌊y⌋₊ := if_pos h

theorem roundMagnitude_le_of_lt_half {x : ℝ} {m : ℕ} {e : ℤ} (he : -1074 ≤ e) (hlow : 2 ^ 52 ≤ m)
    (hhigh : m + 1 ≤ 2 ^ 53) (hx : 0 ≤ x) (hlt : x < (m + 1 / 2) * 2 ^ e) :
    roundMagnitude x ≤ dyadic m e := by
  have hunit : (0 : ℝ) < 2 ^ e := by positivity
  have hlow' : (2 : ℝ) ^ 52 ≤ m := by exact_mod_cast hlow
  have hhigh' : (m : ℝ) + 1 ≤ 2 ^ 53 := by exact_mod_cast hhigh
  obtain hle | hgt := le_or_gt x (dyadic m e)
  · calc roundMagnitude x ≤ roundMagnitude (dyadic m e) := roundMagnitude_mono hx hle
      _ = dyadic m e := roundMagnitude_dyadic (by omega) he
  · have hgrid : gridExponent x = e := by
      apply gridExponent_eq he
      · exact (mul_le_mul_of_nonneg_right hlow' hunit.le).trans hgt.le
      · exact hlt.trans_le (mul_le_mul_of_nonneg_right (by linarith) hunit.le)
    have hdiv : (m : ℝ) < x / 2 ^ e := (lt_div_iff₀ hunit).mpr hgt
    have hhalf : x / 2 ^ e < m + 1 / 2 := (div_lt_iff₀ hunit).mpr hlt
    have hfloor : ⌊x / 2 ^ e⌋₊ = m := (Nat.floor_eq_iff (by positivity)).mpr ⟨hdiv.le, by linarith⟩
    have hnearest : nearest (x / 2 ^ e) = m := by
      rw [nearest_eq_floor (by rwa [hfloor]), hfloor]
    rw [roundMagnitude, hgrid, hnearest]

theorem exists_mantissa_of_lt_roundMagnitude {z : ℝ} (hz : 0 ≤ z) (hmultiple : IsMultiple z)
    (hup : z < roundMagnitude z) :
    ∃ (m : ℕ) (e : ℤ), -1074 ≤ e ∧ 2 ^ 52 ≤ m ∧ m + 1 ≤ 2 ^ 53 ∧ dyadic m e ≤ z ∧
      roundMagnitude z = dyadic (m + 1) e := by
  have hpos : 0 < z := by
    refine lt_of_le_of_ne hz ?_
    rintro rfl
    simp at hup
  have hlarge : -1074 < gridExponent z := by
    refine lt_of_le_of_ne (le_max_right _ _) fun heq => hup.ne ?_
    exact (roundMagnitude_of_isMultiple hz hmultiple heq.symm).symm
  have hunit : (0 : ℝ) < 2 ^ gridExponent z := by positivity
  have hfloor := Nat.floor_le (div_nonneg hz hunit.le)
  have hnearest : nearest (z / 2 ^ gridExponent z) = ⌊z / 2 ^ gridExponent z⌋₊ + 1 := by
    have hup := (div_lt_iff₀ hunit).mpr hup
    have hlt : ⌊z / 2 ^ gridExponent z⌋₊ < nearest (z / 2 ^ gridExponent z) := by
      exact_mod_cast hfloor.trans_lt hup
    exact le_antisymm (nearest_le_floor_add_one _) hlt
  refine ⟨⌊z / 2 ^ gridExponent z⌋₊, gridExponent z, hlarge.le, Nat.le_floor ?_, ?_, ?_, ?_⟩
  · exact_mod_cast le_div_grid hpos hlarge
  · exact hnearest ▸ nearest_grid_le z
  · exact (le_div_iff₀ hunit).mp hfloor
  · rw [roundMagnitude, hnearest]

/-- A part of a rounded magnitude is rounded to no more than the magnitude itself, though
the magnitude may have been rounded up. -/
theorem roundMagnitude_part {t z : ℝ} (hz : 0 ≤ z) (hmultiple : IsMultiple z) (ht : 0 ≤ t)
    (hlt : t ≤ 1 - 2 ^ (-53 : ℤ)) : roundMagnitude (t * roundMagnitude z) ≤ z := by
  obtain hle | hup := le_or_gt (roundMagnitude z) z
  · exact (roundMagnitude_mul_le z ht (hlt.trans (by norm_num))).trans hle
  · obtain ⟨m, e, he, hlow, hhigh, hbelow, hrounded⟩ :=
      exists_mantissa_of_lt_roundMagnitude hz hmultiple hup
    have hnonneg := mul_nonneg ht (roundMagnitude_nonneg z)
    refine (roundMagnitude_le_of_lt_half he hlow hhigh hnonneg ?_).trans hbelow
    rw [hrounded, ← mul_assoc]
    refine mul_lt_mul_of_pos_right ?_ (by positivity)
    have hlow : (2 : ℝ) ^ 52 ≤ m := by exact_mod_cast hlow
    push_cast
    calc t * (m + 1) ≤ (1 - 2 ^ (-53 : ℤ)) * (m + 1) := by gcongr
      _ < m + 1 / 2 := by
        norm_num
        linarith

/-! ## Parts of a way -/

theorem round_part_of_nonneg {t z : ℝ} (hz : 0 ≤ z) (hmultiple : IsMultiple z) (ht : 0 ≤ t)
    (hlt : t ≤ 1 - 2 ^ (-53 : ℤ)) (hfinite : round z ≠ ⊤) :
    ∃ q : ℝ, round (t * round z) = q ∧ 0 ≤ q ∧ q ≤ z := by
  have hpart := roundMagnitude_part hz hmultiple ht hlt
  have hround := roundMagnitude_nonneg z
  rw [round_coe, roundReal_of_nonneg hz, overflow] at hfinite ⊢
  have hunder : roundMagnitude z < 2 ^ 1024 := by
    by_contra hover
    exact hfinite (if_neg hover)
  have hle := roundMagnitude_mul_le z ht (hlt.trans (by norm_num))
  rw [if_pos hunder, ← EReal.coe_mul, round_coe, roundReal_of_nonneg (mul_nonneg ht hround),
    overflow, if_pos (hle.trans_lt hunder)]
  exact ⟨_, rfl, roundMagnitude_nonneg _, hpart⟩

theorem round_neg (x : EReal) : round (-x) = -round x := by
  induction x with
  | bot => rfl
  | top => rfl
  | coe x => exact roundReal_neg x

theorem round_part {t x y : ℝ} (hx : IsMultiple x) (hy : IsMultiple y) (ht : 0 ≤ t)
    (hlt : t ≤ 1 - 2 ^ (-53 : ℤ)) (htop : round (y - x) ≠ ⊤) (hbot : round (y - x) ≠ ⊥) :
    ∃ q : ℝ, round (t * round (y - x)) = q ∧ x + q ∈ Set.uIcc x y := by
  rw [← EReal.coe_sub] at htop hbot ⊢
  obtain hle | hle := le_total x y
  · obtain ⟨q, hq, hnonneg, hqle⟩ :=
      round_part_of_nonneg (sub_nonneg.mpr hle) (hy.sub hx) ht hlt htop
    exact ⟨q, hq, Set.mem_uIcc_of_le (by linarith) (by linarith)⟩
  · have hneg : y - x = -(x - y) := by ring
    rw [hneg, EReal.coe_neg, round_neg] at hbot ⊢
    rw [ne_eq, EReal.neg_eq_bot_iff] at hbot
    obtain ⟨q, hq, hnonneg, hqle⟩ :=
      round_part_of_nonneg (sub_nonneg.mpr hle) (hx.sub hy) ht hlt hbot
    refine ⟨-q, ?_, Set.mem_uIcc_of_ge (by linarith) (by linarith)⟩
    rw [mul_neg, round_neg, hq, EReal.coe_neg]

end Minima.Double
