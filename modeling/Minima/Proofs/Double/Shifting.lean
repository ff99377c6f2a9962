import Minima.Proofs.Double.Rounding

/-!
# Rounding a mantissa

The arithmetic of unpacked floats brings a mantissa to its grid by shifting it to
the right, with a round bit and a sticky bit for what was shifted out.  The two
bits place the exact value within its unit, so that the mantissa they round to is
the nearest one.
-/

namespace Minima.Double

open Float.Model Float.Model.UnpackedFloat

/-! ## The residual bits -/

/-- The mantissa and its round bit are the halves below `y`, and the sticky bit
tells whether anything is left. -/
structure Places (em : ExtendedMantissa) (y : ℝ) : Prop where
  le : 2 * (em.mantissa : ℝ) + em.roundBit.toNat ≤ 2 * y
  lt : 2 * y < 2 * (em.mantissa : ℝ) + em.roundBit.toNat + 1
  sticky : em.stickyBit = false ↔ 2 * y = 2 * (em.mantissa : ℝ) + em.roundBit.toNat

theorem Places.mantissa_le {em : ExtendedMantissa} {y : ℝ} (h : Places em y) :
    (em.mantissa : ℝ) ≤ y := by
  have hle := h.le
  have hbit : (0 : ℝ) ≤ em.roundBit.toNat := Nat.cast_nonneg _
  linarith

theorem Places.lt_mantissa_add_one {em : ExtendedMantissa} {y : ℝ} (h : Places em y) :
    y < em.mantissa + 1 := by
  have hlt := h.lt
  have hbit : (em.roundBit.toNat : ℝ) ≤ 1 := by
    exact_mod_cast Bool.toNat_le em.roundBit
  linarith

theorem Places.floor_eq {em : ExtendedMantissa} {y : ℝ} (h : Places em y) :
    ⌊y⌋₊ = em.mantissa := by
  have hy : 0 ≤ y := (Nat.cast_nonneg _).trans h.mantissa_le
  rw [Nat.floor_eq_iff hy]
  exact ⟨h.mantissa_le, h.lt_mantissa_add_one⟩

theorem Places.shiftRightOne {em : ExtendedMantissa} {y : ℝ} (h : Places em y) :
    Places em.shiftRightOne (y / 2) := by
  obtain ⟨m, r, s⟩ := em
  have hsplit : (m : ℝ) = 2 * ((m / 2 : ℕ) : ℝ) + ((m % 2 : ℕ) : ℝ) := by
    exact_mod_cast (Nat.div_add_mod m 2).symm
  have hbit : (m % 2 != 0).toNat = m % 2 := by
    obtain h | h := Nat.mod_two_eq_zero_or_one m <;> simp [h]
  have hle := h.mantissa_le
  have hlt := h.lt_mantissa_add_one
  refine ⟨?_, ?_, ?_⟩
  · simp only [ExtendedMantissa.shiftRightOne, hbit]
    linarith
  · simp only [ExtendedMantissa.shiftRightOne, hbit]
    linarith
  · have hsticky := h.sticky
    simp only [ExtendedMantissa.shiftRightOne, hbit, Bool.or_eq_false_iff] at hsticky ⊢
    have htwo : 2 * (y / 2) = y := by
      ring
    rw [htwo, ← hsplit]
    constructor
    · rintro ⟨rfl, hs⟩
      have := hsticky.mp hs
      simp only [Bool.toNat_false, Nat.cast_zero, add_zero] at this
      linarith
    · intro hy
      -- an integer has neither a half nor anything below it
      cases r with
      | false =>
          refine ⟨rfl, hsticky.mpr ?_⟩
          simp [hy]
      | true =>
          have := h.le
          simp [hy] at this
          linarith

theorem Places.shiftRight {em : ExtendedMantissa} {y : ℝ} (h : Places em y) (n : ℕ) :
    Places (em >>> n) (y / 2 ^ n) := by
  induction n with
  | zero =>
      have hshift : em >>> 0 = em := rfl
      simpa [hshift] using h
  | succ n ih =>
      have hshift : em >>> (n + 1) = (em >>> n).shiftRightOne := rfl
      rw [hshift, pow_succ, ← div_div]
      exact ih.shiftRightOne

theorem Places.roundedMantissa_eq {em : ExtendedMantissa} {y : ℝ} (h : Places em y) :
    em.roundedMantissa = nearest y := by
  obtain ⟨m, r, s⟩ := em
  have hfloor := h.floor_eq
  have hle := h.le
  have hlt := h.lt
  have hsticky := h.sticky
  simp only at hfloor hle hlt hsticky
  unfold nearest
  rw [hfloor]
  cases r with
  | false =>
      simp only [Bool.toNat_false, Nat.cast_zero, add_zero] at hlt
      rw [if_pos (by linarith)]
      cases s <;> rfl
  | true =>
      simp only [Bool.toNat_true, Nat.cast_one] at hle hsticky
      rw [if_neg (by linarith)]
      cases s with
      | false =>
          have := hsticky.mp rfl
          rw [if_pos (by linarith)]
          rfl
      | true =>
          rw [if_neg]
          · rfl
          · intro hy
            have := hsticky.mpr (by linarith)
            simp at this

theorem places_exact (m : ℕ) : Places (.ofMantissaAndAccuracy m .exact) m := by
  refine ⟨?_, ?_, ?_⟩ <;> simp [ExtendedMantissa.ofMantissaAndAccuracy]

theorem places_lt {q : ℕ} {y : ℝ} (hgt : q < y) (hlt : y < q + 1 / 2) :
    Places (.ofMantissaAndAccuracy q (.inexact .lt)) y := by
  refine ⟨?_, ?_, ?_⟩ <;> simp only [ExtendedMantissa.ofMantissaAndAccuracy, Bool.toNat_false,
    Nat.cast_zero, add_zero]
  · linarith
  · linarith
  · simp only [Bool.true_eq_false, false_iff]
    linarith

theorem places_half {q : ℕ} {y : ℝ} (h : y = q + 1 / 2) :
    Places (.ofMantissaAndAccuracy q (.inexact .eq)) y := by
  refine ⟨?_, ?_, ?_⟩ <;> simp only [ExtendedMantissa.ofMantissaAndAccuracy, Bool.toNat_true,
    Nat.cast_one]
  · linarith
  · linarith
  · simp only [true_iff]
    linarith

theorem places_gt {q : ℕ} {y : ℝ} (hgt : q + 1 / 2 < y) (hlt : y < q + 1) :
    Places (.ofMantissaAndAccuracy q (.inexact .gt)) y := by
  refine ⟨?_, ?_, ?_⟩ <;> simp only [ExtendedMantissa.ofMantissaAndAccuracy, Bool.toNat_true,
    Nat.cast_one]
  · linarith
  · linarith
  · simp only [Bool.true_eq_false, false_iff]
    linarith

/-! ## The grid of a mantissa -/

theorem targetExponent_eq (m : ℕ) (e : ℤ) :
    Format.binary64.targetExponent (totalExponent m e) = max (m.log2 + e - 52) (-1074) := by
  have hbits : Format.binary64.mantissaBits = 53 := rfl
  have hmin : Format.binary64.minExponent = -1074 := rfl
  rw [Format.targetExponent, totalExponent, hbits, hmin]
  congr 1
  omega

theorem log_eq_of_mantissa {m : ℕ} {e : ℤ} {x : ℝ} (hm : 0 < m) (hx : 0 < x)
    (hle : (m : ℝ) ≤ x / 2 ^ e) (hlt : x / 2 ^ e < m + 1) : Int.log 2 x = m.log2 + e := by
  have hpow : (0 : ℝ) < 2 ^ e := by
    positivity
  rw [le_div_iff₀ hpow] at hle
  rw [div_lt_iff₀ hpow] at hlt
  apply le_antisymm
  · rw [← Int.lt_add_one_iff, ← Int.lt_zpow_iff_log_lt (by norm_num) hx]
    have hmant : ((m + 1 : ℕ) : ℝ) ≤ ((2 ^ (m.log2 + 1) : ℕ) : ℝ) :=
      Nat.cast_le.mpr Nat.lt_log2_self
    push_cast at hmant ⊢
    rw [add_right_comm, zpow_add₀ (by norm_num)]
    calc x < (m + 1) * 2 ^ e := hlt
      _ ≤ _ := by
        apply mul_le_mul_of_nonneg_right _ hpow.le
        exact_mod_cast hmant
  · rw [← Int.zpow_le_iff_le_log (by norm_num) hx]
    have hmant : ((2 ^ m.log2 : ℕ) : ℝ) ≤ (m : ℝ) :=
      Nat.cast_le.mpr (Nat.log2_self_le hm.ne')
    push_cast at hmant ⊢
    rw [zpow_add₀ (by norm_num)]
    calc _ ≤ (m : ℝ) * 2 ^ e := by
          apply mul_le_mul_of_nonneg_right _ hpow.le
          exact_mod_cast hmant
      _ ≤ x := hle

theorem targetExponent_eq_gridExponent {m : ℕ} {e : ℤ} {x : ℝ} (hx : 0 < x)
    (hle : (m : ℝ) ≤ x / 2 ^ e) (hlt : x / 2 ^ e < m + 1) (he : e ≤ gridExponent x) :
    Format.binary64.targetExponent (totalExponent m e) = gridExponent x := by
  rw [targetExponent_eq]
  obtain rfl | hm := Nat.eq_zero_or_pos m
  · -- a number below its own exponent is on the smallest grid
    have hlog : Int.log 2 x < e := by
      rw [div_lt_iff₀ (by positivity)] at hlt
      rw [← Int.lt_zpow_iff_log_lt (by norm_num) hx]
      simpa using hlt
    unfold gridExponent at he ⊢
    simp only [Nat.log2_zero]
    omega
  · rw [gridExponent, log_eq_of_mantissa hm hx hle hlt]

theorem gridExponent_magnitude {m : ℕ} (hm : 0 < m) (e : ℤ) :
    gridExponent (m * 2 ^ e) = max (m.log2 + e - 52) (-1074) := by
  have hdiv : (m * 2 ^ e : ℝ) / 2 ^ e = m :=
    mul_div_cancel_right₀ _ (by positivity)
  have hpos : (0 : ℝ) < m := Nat.cast_pos.mpr hm
  rw [gridExponent, log_eq_of_mantissa hm (by positivity) hdiv.ge (by rw [hdiv]; linarith)]

end Minima.Double
