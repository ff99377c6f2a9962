import Minima.Proofs.Double
import Minima.Proofs.Double.Digits
import Minima.Random

/-!
# Parts of a way in double precision

A number drawn between zero and one is below one by a whole digit.  So a part of the way from one
double to another, with the difference, the product and the sum rounded, does not go past the
other.
-/

namespace Minima.Double

/-! ## Values -/

open Float.Model Float.Model.UnpackedFloat

theorem exponent_le_of_unpack {b : BitVec Format.binary64.numBits} {s : Sign} {m : ℕ} {e : ℤ}
    {hm : 0 < m} (h : UnpackedFloat.unpack Format.binary64 b = .finite s m e hm) : e ≤ 971 := by
  have hbias : (Format.binary64.exponentBias : ℤ) + Format.binary64.mantissaBitsWithoutImplicit =
      1075 := rfl
  unfold UnpackedFloat.unpack at h
  simp only [hbias] at h
  have hlt : (unpackExponent b).toNat < 2048 := (unpackExponent b).isLt
  split_ifs at h with hones hzero hzero' hzero
  · cases h
    have hexponent : (unpackExponent b).toNat = 0 := congrArg BitVec.toNat hzero'
    omega
  · cases h
    have hexponent : (unpackExponent b).toNat ≠ 2047 := fun h => hones (BitVec.eq_of_toNat_eq h)
    omega

theorem exists_dyadic {a : Float} (h : a.isFinite = true) :
    ∃ (s : Sign) (m : ℕ) (e : ℤ), value a = signed s (dyadic m e : EReal) ∧ m < 2 ^ 53 ∧
      -1074 ≤ e ∧ e ≤ 971 := by
  have hfinite : a.toModel.unpack.isFinite = true := h
  have hcanonical := canonical a
  unfold value
  generalize hu : a.toModel.unpack = u at hfinite hcanonical ⊢
  cases u with
  | infinity s => cases hfinite
  | notANumber => cases hfinite
  | zero s => exact ⟨s, 0, 0, by simp [unpackedValue, dyadic], by norm_num⟩
  | finite s m e hm =>
      obtain ⟨hlt, he, -⟩ := hcanonical
      exact ⟨s, m, e, rfl, hlt, he, exponent_le_of_unpack hu⟩

theorem round_value {a : Float} (h : a.isFinite = true) : round (value a) = value a := by
  obtain ⟨s, m, e, hvalue, hlt, he, hhigh⟩ := exists_dyadic h
  have hnonneg : 0 ≤ dyadic m e := by positivity
  rw [hvalue, round_signed hnonneg, roundMagnitude_dyadic hlt.le he, overflow,
    if_pos (dyadic_lt hlt hhigh)]

theorem exists_multiple {a : Float} (h : a.isFinite = true) :
    ∃ x : ℝ, value a = x ∧ IsMultiple x := by
  obtain ⟨s, m, e, hvalue, -, he, -⟩ := exists_dyadic h
  cases s with
  | positive => exact ⟨dyadic m e, hvalue, isMultiple_dyadic m he⟩
  | negative => exact ⟨-dyadic m e, hvalue, (isMultiple_dyadic m he).neg⟩

/-! ## Fractions -/

theorem value_ofNat {n : ℕ} (hn : n < 2 ^ 53) :
    IsDefined (Float.ofNat n) ∧ value (Float.ofNat n) = dyadic n 0 := by
  have hround : round (dyadic n 0 : EReal) = (dyadic n 0 : EReal) :=
    round_dyadic hn.le (by norm_num) (dyadic_lt hn (by norm_num))
  have hof : Float.ofNat n = n.toUInt64.toFloat * 1 := by
    change Float.ofScientific n false 0 = _
    rw [Float.ofScientific, dif_pos ⟨hn, by decide⟩]
    rfl
  have hword : ((n.toUInt64.toNat : ℤ) : ℝ) = n := by
    have : n.toUInt64.toNat = n := Nat.mod_eq_of_lt (hn.trans (by norm_num))
    rw [this]
    rfl
  obtain ⟨hdefined, hvalue⟩ := rounds_normalize n.toUInt64.toNat 0
  rw [hword] at hvalue
  have hfloat : value n.toUInt64.toFloat = dyadic n 0 := hvalue.trans hround
  have hone := (isDefined_of_le (by decide +kernel : (1 : Float) ≤ 1)).1
  have hproduct : IsDefined (n.toUInt64.toFloat * 1) := by
    refine isDefined_mul hdefined hone ?_
    rw [hfloat, value_one]
    rintro (⟨-, h | h⟩ | ⟨h | h, -⟩)
    · exact EReal.coe_ne_top 1 h
    · exact EReal.coe_ne_bot 1 h
    · exact EReal.coe_ne_top _ h
    · exact EReal.coe_ne_bot _ h
  rw [hof]
  refine ⟨hproduct, ?_⟩
  rw [value_mul hproduct, hfloat, value_one, mul_one, hround]

theorem value_two_pow : value (Float.ofNat (1 <<< 53)) = ((2 ^ 53 : ℝ) : EReal) ∧
    (Float.ofNat (1 <<< 53)).isFinite = true := by
  have hunpack : (Float.ofNat (1 <<< 53)).toModel.unpack =
      .finite .positive (2 ^ 52) 1 (by decide) := by
    rfl
  refine ⟨?_, by decide +kernel⟩
  rw [value, hunpack, unpackedValue, dyadic]
  norm_num [signed]

theorem value_fraction (w : UInt64) :
    ∃ t : ℝ, value (Random.fraction w : Float) = t ∧ IsDefined (Random.fraction w : Float) ∧
      0 < t ∧ t ≤ 1 - 2 ^ (-53 : ℤ) := by
  have hshift : w.toNat >>> 12 < 2 ^ 52 := by
    have hw := w.toNat_lt
    rw [Nat.shiftRight_eq_div_pow]
    omega
  have hk : 2 * (w.toNat >>> 12) + 1 < 2 ^ 53 := by
    omega
  obtain ⟨hdefined, hvalue⟩ := value_ofNat hk
  obtain ⟨hpower, hfinite⟩ := value_two_pow
  have hk' : ((2 * (w.toNat >>> 12) + 1 : ℕ) : ℝ) + 1 ≤ 2 ^ 53 := by exact_mod_cast hk
  have hpos : (0 : ℝ) < (2 * (w.toNat >>> 12) + 1 : ℕ) := Nat.cast_pos.mpr (Nat.succ_pos _)
  have hne : value (Float.ofNat (1 <<< 53)) ≠ 0 := by
    rw [hpower]
    exact EReal.coe_ne_zero.mpr (by positivity)
  have hquotient := isDefined_div hdefined hfinite hne
  have hexact : value (Random.fraction w : Float) =
      (dyadic (2 * (w.toNat >>> 12) + 1) (-53) : EReal) := by
    refine (value_div hquotient hne).trans ?_
    rw [hvalue, hpower, ← EReal.coe_div,
      ← round_dyadic hk.le (by norm_num) (dyadic_lt hk (by norm_num))]
    norm_num [dyadic, div_eq_mul_inv]
  refine ⟨_, hexact, hquotient, by positivity, ?_⟩
  rw [dyadic]
  norm_num at hk' ⊢
  linarith

/-! ## Parts of a way -/

/-- A rounded part of the way from one double to another leads to a double between them. -/
theorem add_part_between {t : ℝ} {a b p : Float} (ha : a.isFinite = true) (hb : b.isFinite = true)
    (hdiff : (b - a).isFinite = true) (ht : 0 ≤ t) (hlt : t ≤ 1 - 2 ^ (-53 : ℤ)) (hp : IsDefined p)
    (hvalue : value p = round (t * value (b - a))) :
    (a ≤ a + p ∧ a + p ≤ b) ∨ (b ≤ a + p ∧ a + p ≤ a) := by
  obtain ⟨hda, -, -⟩ := isFinite_iff.mp ha
  obtain ⟨hdb, -, -⟩ := isFinite_iff.mp hb
  obtain ⟨hdefined, htop, hbot⟩ := isFinite_iff.mp hdiff
  obtain ⟨x, hx, hxm⟩ := exists_multiple ha
  obtain ⟨y, hy, hym⟩ := exists_multiple hb
  rw [value_sub hdefined, hx, hy] at htop hbot hvalue
  obtain ⟨q, hq, hmem⟩ := round_part hxm hym ht hlt htop hbot
  rw [hq] at hvalue
  obtain ⟨hsum, hsumValue⟩ :=
    add_of_ne hda hp (hx ▸ EReal.coe_ne_bot x) (hvalue ▸ EReal.coe_ne_bot q)
  rw [hx, hvalue, ← EReal.coe_add] at hsumValue
  have hxround : round x = value a := hx ▸ round_value ha
  have hyround : round y = value b := hy ▸ round_value hb
  have hle {u v : ℝ} (h : u ≤ v) : round u ≤ round v := round_mono (EReal.coe_le_coe_iff.mpr h)
  rw [Set.mem_uIcc] at hmem
  simp only [le_iff, hda, hdb, hsum, hsumValue, true_and, ← hxround, ← hyround]
  exact hmem.imp (fun h => ⟨hle h.1, hle h.2⟩) fun h => ⟨hle h.1, hle h.2⟩

theorem isFinite_of_add_part {t a d : Float} (ht : ∃ x : ℝ, value t = x ∧ 0 < x)
    (ha : a.isFinite = true) (h : (a + t * d).isFinite = true) :
    d.isFinite = true ∧ IsDefined (t * d) := by
  obtain ⟨x, hx, hpos⟩ := ht
  obtain ⟨y, hy, -⟩ := exists_multiple ha
  obtain ⟨hsum, htop, hbot⟩ := isFinite_iff.mp h
  obtain ⟨-, hproduct⟩ := isDefined_of_add hsum
  rw [value_add hsum, hy, value_mul hproduct, hx] at htop hbot
  refine ⟨isFinite_iff.mpr ⟨(isDefined_of_mul hproduct).2, fun hd => htop ?_, fun hd => hbot ?_⟩,
    hproduct⟩
  · rw [hd, EReal.coe_mul_top_of_pos hpos, round_top, EReal.coe_add_top, round_top]
  · rw [hd, EReal.coe_mul_bot_of_pos hpos, round_bot, EReal.add_bot, round_bot]

theorem isFinite_of_sub {a b : Float} (ha : a.isFinite = true) (h : (b - a).isFinite = true) :
    b.isFinite = true := by
  obtain ⟨y, hy, -⟩ := exists_multiple ha
  obtain ⟨hdiff, htop, hbot⟩ := isFinite_iff.mp h
  rw [value_sub hdiff, hy] at htop hbot
  refine isFinite_iff.mpr ⟨(isDefined_of_sub hdiff).1, fun hb => htop ?_, fun hb => hbot ?_⟩
  · rw [hb, EReal.top_sub_coe, round_top]
  · rw [hb, EReal.bot_sub, round_bot]

/-- A fraction of the way from one double to another leads to a double between them, if it leads
to a finite one. -/
theorem add_fraction_between {a b : Float} (w : UInt64) (ha : a.isFinite = true)
    (h : (a + Random.fraction w * (b - a)).isFinite = true) :
    b.isFinite = true ∧
      ((a ≤ a + Random.fraction w * (b - a) ∧ a + Random.fraction w * (b - a) ≤ b) ∨
        (b ≤ a + Random.fraction w * (b - a) ∧ a + Random.fraction w * (b - a) ≤ a)) := by
  obtain ⟨t, ht, -, hpos, hlt⟩ := value_fraction w
  obtain ⟨hdiff, hproduct⟩ := isFinite_of_add_part ⟨t, ht, hpos⟩ ha h
  have hb := isFinite_of_sub ha hdiff
  refine ⟨hb, add_part_between ha hb hdiff hpos.le hlt hproduct ?_⟩
  rw [value_mul hproduct, ht]

theorem add_mul_fraction_between {a b : Float} (w : UInt64) (ha : a.isFinite = true)
    (hdiff : (b - a).isFinite = true) :
    (a ≤ a + (b - a) * Random.fraction w ∧ a + (b - a) * Random.fraction w ≤ b) ∨
      (b ≤ a + (b - a) * Random.fraction w ∧ a + (b - a) * Random.fraction w ≤ a) := by
  obtain ⟨t, ht, hdefined, hpos, hlt⟩ := value_fraction w
  obtain ⟨hdiff', htop, hbot⟩ := isFinite_iff.mp hdiff
  have hproduct : IsDefined ((b - a) * Random.fraction w) := by
    refine isDefined_mul hdiff' hdefined ?_
    rw [ht]
    rintro (⟨-, h | h⟩ | ⟨h | h, -⟩)
    · exact EReal.coe_ne_top t h
    · exact EReal.coe_ne_bot t h
    · exact htop h
    · exact hbot h
  refine add_part_between ha (isFinite_of_sub ha hdiff) hdiff hpos.le hlt hproduct ?_
  rw [value_mul hproduct, ht, mul_comm]

/-! ## The largest double -/

theorem value_largest : value (Scalar.largest : Float) = dyadic (2 ^ 53 - 1) 971 := rfl

theorem value_neg_largest : value (-Scalar.largest : Float) = -(dyadic (2 ^ 53 - 1) 971 : EReal) :=
  rfl

theorem abs_le_largest {a : Float} (h : a.isFinite = true) :
    -Scalar.largest ≤ a ∧ a ≤ Scalar.largest := by
  obtain ⟨hdefined, -⟩ := isFinite_iff.mp h
  have hlargest :=
    (isDefined_of_le (by decide +kernel : (Scalar.largest : Float) ≤ Scalar.largest)).1
  have hleast :=
    (isDefined_of_le (by decide +kernel : (-Scalar.largest : Float) ≤ -Scalar.largest)).1
  obtain ⟨s, m, e, hvalue, hlt, -, hhigh⟩ := exists_dyadic h
  simp only [le_iff, hdefined, hlargest, hleast, true_and, value_largest, value_neg_largest, hvalue]
  have hrange {x : ℝ} (hx : |x| ≤ dyadic (2 ^ 53 - 1) 971) :
      -(dyadic (2 ^ 53 - 1) 971 : EReal) ≤ x ∧ (x : EReal) ≤ dyadic (2 ^ 53 - 1) 971 := by
    rw [← EReal.coe_neg, EReal.coe_le_coe_iff, EReal.coe_le_coe_iff]
    exact abs_le.mp hx
  have hle : |dyadic m e| ≤ dyadic (2 ^ 53 - 1) 971 := by
    rw [abs_of_nonneg (by positivity)]
    refine mul_le_mul (Nat.cast_le.mpr (Nat.le_sub_one_of_lt hlt)) ?_ (by positivity)
      (Nat.cast_nonneg _)
    exact zpow_le_zpow_right₀ (by norm_num) hhigh
  cases s with
  | positive => exact hrange hle
  | negative => exact hrange ((abs_neg _).trans_le hle)

end Minima.Double
