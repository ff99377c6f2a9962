import Minima.Proofs.Double.Shifting

/-!
# Unpacked doubles

An unpacked float has a value among the extended real numbers.  In canonical form
its exponent is that of the grid, so that the order of the values is the order
that comparisons find, and packing keeps every value that does not overflow.
-/

namespace Minima.Double

open Float.Model Float.Model.UnpackedFloat

noncomputable def signed : Sign → EReal → EReal
  | .positive, x => x
  | .negative, x => -x

noncomputable def unpackedValue : UnpackedFloat → EReal
  | .infinity s => signed s ⊤
  | .notANumber => 0
  | .zero _ => 0
  | .finite s m e _ => signed s (dyadic m e : EReal)

/-- The exponent is that of the grid. -/
def Canonical : UnpackedFloat → Prop
  | .finite _ m e _ => m < 2 ^ 53 ∧ -1074 ≤ e ∧ (2 ^ 52 ≤ m ∨ e = -1074)
  | _ => True

@[simp] theorem signed_zero (s : Sign) : signed s 0 = 0 := by
  cases s <;> simp [signed]

theorem signed_neg (s : Sign) (x : EReal) : signed (-s) x = -signed s x := by
  cases s
  · exact (neg_neg x).symm
  · rfl

theorem signed_mul (s t : Sign) (x y : EReal) :
    signed (s * t) (x * y) = signed s x * signed t y := by
  cases s <;> cases t
  · exact (neg_mul_neg x y).symm
  · exact (neg_mul x y).symm
  · exact (mul_neg x y).symm
  · rfl

/-! ## Rounding a mantissa -/

private theorem shiftToTargetExponent_of_lt {r : ℕ} {e : ℤ} (hr : r < 2 ^ 53) (he : -1074 ≤ e) :
    shiftToTargetExponent Format.binary64 r e .exact = (⟨r, false, false⟩, e) := by
  have hlog : r.log2 ≤ 52 := by
    obtain rfl | hpos := Nat.eq_zero_or_pos r
    · simp
    · have := (Nat.log2_lt hpos.ne').mpr hr
      omega
  have hshift : (Format.binary64.targetExponent (totalExponent r e) - e).toNat = 0 := by
    rw [targetExponent_eq]
    omega
  rw [shiftToTargetExponent, shiftToExponent, hshift]
  simp only [Nat.cast_zero, add_zero]
  rfl

private theorem shiftToTargetExponent_two_pow {e : ℤ} (he : -1074 ≤ e) :
    shiftToTargetExponent Format.binary64 (2 ^ 53) e .exact = (⟨2 ^ 52, false, false⟩, e + 1) := by
  have hshift : (Format.binary64.targetExponent (totalExponent (2 ^ 53) e) - e).toNat = 1 := by
    rw [targetExponent_eq, Nat.log2_two_pow]
    omega
  rw [shiftToTargetExponent, shiftToExponent, hshift]
  rfl

private theorem mantissa_ofMantissaAndAccuracy (m : ℕ) (acc : Accuracy) :
    (ExtendedMantissa.ofMantissaAndAccuracy m acc).mantissa = m := by
  unfold ExtendedMantissa.ofMantissaAndAccuracy
  split <;> rfl

private def carried (s : Sign) (r : ℕ) (e : ℤ) : UnpackedFloat :=
  let (em, e) := shiftToTargetExponent Format.binary64 r e .exact
  if h : em.mantissa = 0 then .zero s else .finite s em.mantissa e (Nat.pos_of_ne_zero h)

private theorem carried_spec (s : Sign) {r : ℕ} {e : ℤ} (hr : r ≤ 2 ^ 53) (he : -1074 ≤ e)
    (hnormal : -1074 < e → 2 ^ 52 ≤ r) :
    (carried s r e = .zero s ∧ r = 0) ∨
      ∃ m e' hm, carried s r e = .finite s m e' hm ∧ Canonical (.finite s m e' hm) ∧
        (m * 2 ^ e' : ℝ) = r * 2 ^ e := by
  unfold carried
  obtain hr | rfl := hr.lt_or_eq
  · rw [shiftToTargetExponent_of_lt hr he]
    obtain rfl | hpos := Nat.eq_zero_or_pos r
    · exact .inl ⟨rfl, rfl⟩
    · refine .inr ⟨r, e, hpos, dif_neg hpos.ne', ⟨hr, he, ?_⟩, rfl⟩
      obtain rfl | hcoarse := he.eq_or_lt
      · exact .inr rfl
      · exact .inl (hnormal hcoarse)
  · rw [shiftToTargetExponent_two_pow he]
    refine .inr ⟨2 ^ 52, e + 1, by norm_num, rfl, ⟨by norm_num, by omega, .inl le_rfl⟩, ?_⟩
    rw [zpow_add_one₀ (by norm_num)]
    push_cast
    ring

/-- A mantissa that is not coarser than the grid of the number it approximates
is rounded as that number is. -/
theorem roundWithAccuracy_spec (s : Sign) {m : ℕ} {e : ℤ} {acc : Accuracy} {x : ℝ} (hx : 0 < x)
    (h : Places (.ofMantissaAndAccuracy m acc) (x / 2 ^ e)) (he : e ≤ gridExponent x) :
    (roundWithAccuracy Format.binary64 s m e acc = .zero s ∧ roundMagnitude x = 0) ∨
      ∃ m' e' hm, roundWithAccuracy Format.binary64 s m e acc = .finite s m' e' hm ∧
        Canonical (.finite s m' e' hm) ∧ (m' * 2 ^ e' : ℝ) = roundMagnitude x := by
  have hle := h.mantissa_le
  have hlt := h.lt_mantissa_add_one
  rw [mantissa_ofMantissaAndAccuracy] at hle hlt
  have htarget := targetExponent_eq_gridExponent hx hle hlt he
  have hgrid : -1074 ≤ gridExponent x := le_max_right _ _
  obtain ⟨k, hk⟩ : ∃ k : ℕ, gridExponent x = e + k := ⟨(gridExponent x - e).toNat, by omega⟩
  have hfirst : shiftToTargetExponent Format.binary64 m e acc =
      (ExtendedMantissa.ofMantissaAndAccuracy m acc >>> k, gridExponent x) := by
    have hshift : (gridExponent x - e).toNat = k := by
      omega
    rw [shiftToTargetExponent, shiftToExponent, htarget, hshift, hk]
  have hrounded : (ExtendedMantissa.ofMantissaAndAccuracy m acc >>> k).roundedMantissa =
      nearest (x / 2 ^ gridExponent x) := by
    rw [(h.shiftRight k).roundedMantissa_eq, div_div, hk, zpow_add₀ (by norm_num), zpow_natCast]
  have hcarried : roundWithAccuracy Format.binary64 s m e acc =
      carried s (nearest (x / 2 ^ gridExponent x)) (gridExponent x) := by
    rw [← hrounded]
    unfold roundWithAccuracy carried
    rw [hfirst]
  rw [hcarried, roundMagnitude]
  obtain ⟨hzero, hr⟩ | hfinite := carried_spec s (nearest_grid_le x) hgrid
    fun hcoarse => le_nearest_grid hx hcoarse
  · exact .inl ⟨hzero, by simp [hr]⟩
  · exact .inr hfinite

/-! ## Order -/

private theorem compares_magnitude {m₁ m₂ : ℕ} {e₁ e₂ : ℤ} (h₁ : m₁ < 2 ^ 53) (h₂ : m₂ < 2 ^ 53)
    (hn₁ : -1074 < e₁ → 2 ^ 52 ≤ m₁) (hn₂ : -1074 < e₂ → 2 ^ 52 ≤ m₂)
    (he₁ : -1074 ≤ e₁) (he₂ : -1074 ≤ e₂) :
    ((compare e₁ e₂).then (compare m₁ m₂)).Compares (m₁ * 2 ^ e₁ : ℝ) (m₂ * 2 ^ e₂) := by
  have hlt {m m' : ℕ} {e e' : ℤ} (hm : m < 2 ^ 53) (hm' : 2 ^ 52 ≤ m') (he : e < e') :
      (m * 2 ^ e : ℝ) < m' * 2 ^ e' := by
    calc (m * 2 ^ e : ℝ) < (2 ^ 53 : ℕ) * 2 ^ e := by
          gcongr
      _ = (2 ^ 52 : ℕ) * 2 ^ (e + 1) := by
          rw [zpow_add_one₀ (by norm_num)]
          push_cast
          ring
      _ ≤ m' * 2 ^ e' := by
          gcongr
          · norm_num
          · omega
  obtain he | rfl | he := lt_trichotomy e₁ e₂
  · rw [compare_lt_iff_lt.mpr he]
    exact hlt h₁ (hn₂ (he₁.trans_lt he)) he
  · rw [compare_eq_iff_eq.mpr rfl]
    have hpow : (0 : ℝ) < 2 ^ e₁ := by
      positivity
    obtain hm | rfl | hm := lt_trichotomy m₁ m₂
    · rw [compare_lt_iff_lt.mpr hm]
      exact mul_lt_mul_of_pos_right (Nat.cast_lt.mpr hm) hpow
    · rw [compare_eq_iff_eq.mpr rfl]
      rfl
    · rw [compare_gt_iff_gt.mpr hm]
      exact mul_lt_mul_of_pos_right (Nat.cast_lt.mpr hm) hpow
  · rw [compare_gt_iff_gt.mpr he]
    exact hlt h₂ (hn₁ (he₂.trans_lt he)) he

private theorem compares_coe {o : Ordering} {x y : ℝ} (h : o.Compares x y) :
    o.Compares (x : EReal) y := by
  cases o
  · exact EReal.coe_lt_coe_iff.mpr h
  · exact congrArg _ h
  · exact EReal.coe_lt_coe_iff.mpr h

private theorem compares_neg {o : Ordering} {x y : EReal} (h : o.Compares x y) :
    o.swap.Compares (-x) (-y) := by
  cases o
  · exact EReal.neg_lt_neg_iff.mpr h
  · exact congrArg _ h
  · exact EReal.neg_lt_neg_iff.mpr h

@[simp] theorem unpackedValue_infinity_positive : unpackedValue (.infinity .positive) = ⊤ := rfl

@[simp] theorem unpackedValue_infinity_negative : unpackedValue (.infinity .negative) = ⊥ := rfl

@[simp] theorem unpackedValue_zero (s : Sign) : unpackedValue (.zero s) = 0 := rfl

section finite

variable {m : ℕ} (e : ℤ) (hm : 0 < m)
include hm

theorem magnitude_pos : (0 : ℝ) < m * 2 ^ e := by
  have : (0 : ℝ) < m := Nat.cast_pos.mpr hm
  positivity

theorem unpackedValue_finite_positive_pos : 0 < unpackedValue (.finite .positive m e hm) :=
  EReal.coe_pos.mpr (magnitude_pos e hm)

theorem unpackedValue_finite_negative_neg : unpackedValue (.finite .negative m e hm) < 0 := by
  have h : -((m * 2 ^ e : ℝ) : EReal) < -0 :=
    EReal.neg_lt_neg_iff.mpr (EReal.coe_pos.mpr (magnitude_pos e hm))
  rwa [neg_zero] at h

theorem unpackedValue_finite_lt_top (s : Sign) : unpackedValue (.finite s m e hm) < ⊤ := by
  cases s
  · exact (unpackedValue_finite_negative_neg e hm).trans EReal.zero_lt_top
  · exact EReal.coe_lt_top _

theorem bot_lt_unpackedValue_finite (s : Sign) : ⊥ < unpackedValue (.finite s m e hm) := by
  cases s
  · exact EReal.bot_lt_coe (-(m * 2 ^ e))
  · exact EReal.bot_lt_coe _

end finite

theorem compare_spec {a b : UnpackedFloat} (ha : Canonical a) (hb : Canonical b)
    (hna : a ≠ .notANumber) (hnb : b ≠ .notANumber) :
    ∃ o, UnpackedFloat.compare a b = some o ∧
      o.Compares (unpackedValue a) (unpackedValue b) := by
  cases a with
  | notANumber => exact absurd rfl hna
  | infinity s =>
      cases b with
      | notANumber => exact absurd rfl hnb
      | infinity t =>
          cases s
          · cases t
            · exact ⟨.eq, rfl, rfl⟩
            · exact ⟨.lt, rfl, bot_lt_top⟩
          · cases t
            · exact ⟨.gt, rfl, bot_lt_top⟩
            · exact ⟨.eq, rfl, rfl⟩
      | zero t => cases s <;> refine ⟨_, rfl, ?_⟩ <;> simp
      | finite t m e hm =>
          cases s
          · exact ⟨_, rfl, bot_lt_unpackedValue_finite e hm t⟩
          · exact ⟨_, rfl, unpackedValue_finite_lt_top e hm t⟩
  | zero s =>
      cases b with
      | notANumber => exact absurd rfl hnb
      | infinity t => cases t <;> refine ⟨_, rfl, ?_⟩ <;> simp
      | zero t => exact ⟨_, rfl, rfl⟩
      | finite t m e hm =>
          cases t
          · exact ⟨_, rfl, unpackedValue_finite_negative_neg e hm⟩
          · exact ⟨_, rfl, unpackedValue_finite_positive_pos e hm⟩
  | finite s m e hm =>
      cases b with
      | notANumber => exact absurd rfl hnb
      | infinity t =>
          cases t
          · exact ⟨.gt, by cases s <;> rfl, bot_lt_unpackedValue_finite e hm s⟩
          · exact ⟨.lt, by cases s <;> rfl, unpackedValue_finite_lt_top e hm s⟩
      | zero t =>
          cases s
          · exact ⟨_, rfl, unpackedValue_finite_negative_neg e hm⟩
          · exact ⟨_, rfl, unpackedValue_finite_positive_pos e hm⟩
      | finite t m' e' hm' =>
          obtain ⟨h, he, hn⟩ := ha
          obtain ⟨h', he', hn'⟩ := hb
          have hcompares := compares_coe (compares_magnitude h h'
            (fun hcoarse => hn.resolve_right hcoarse.ne')
            (fun hcoarse => hn'.resolve_right hcoarse.ne') he he')
          cases s
          · cases t
            · exact ⟨_, rfl, compares_neg hcompares⟩
            · exact ⟨_, rfl, (unpackedValue_finite_negative_neg e hm).trans
                (unpackedValue_finite_positive_pos e' hm')⟩
          · cases t
            · exact ⟨_, rfl, (unpackedValue_finite_negative_neg e' hm').trans
                (unpackedValue_finite_positive_pos e hm)⟩
            · exact ⟨_, rfl, hcompares⟩

end Minima.Double
