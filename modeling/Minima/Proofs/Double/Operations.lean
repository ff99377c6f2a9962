import Minima.Proofs.Double.Packing

/-!
# Operations of doubles

The sum, the difference, the product and the quotient of two doubles and the
square root of one are the exact ones, rounded.  The exceptions are the forms
that have no value, and the quotients by zero.
-/

namespace Minima.Double

open Float.Model Float.Model.UnpackedFloat

def Rounds (u : UnpackedFloat) (x : EReal) : Prop :=
  repacked u ≠ .notANumber ∧ unpackedValue (repacked u) = round x

/-! ## Rounded results -/

theorem round_signed {x : ℝ} (h : 0 ≤ x) (s : Sign) :
    round (signed s x) = signed s (overflow (roundMagnitude x)) := by
  cases s
  · have hneg : signed .negative (x : EReal) = ((-x : ℝ) : EReal) := rfl
    rw [hneg, round_coe, roundReal_neg, roundReal_of_nonneg h]
    rfl
  · exact roundReal_of_nonneg h

private theorem rounds_finite {s : Sign} {m : ℕ} {e : ℤ} {hm : 0 < m} {x : ℝ}
    (h : Canonical (.finite s m e hm)) (hx : 0 ≤ x) (hvalue : (m * 2 ^ e : ℝ) = roundMagnitude x) :
    Rounds (.finite s m e hm) (signed s x) := by
  refine ⟨?_, ?_⟩
  · rw [repacked_finite h]
    split_ifs <;> simp
  · rw [unpackedValue_repacked_finite h, round_signed hx, hvalue]

theorem rounds_self {u : UnpackedFloat} (h : Canonical u) (hu : u ≠ .notANumber) :
    Rounds u (unpackedValue u) := by
  cases u with
  | notANumber => exact absurd rfl hu
  | infinity s =>
      refine ⟨by simp [repacked_infinity], ?_⟩
      rw [repacked_infinity]
      cases s <;> rfl
  | zero s =>
      refine ⟨by simp [repacked_zero], ?_⟩
      rw [repacked_zero, unpackedValue_zero, round_zero]
  | finite s m e hm =>
      apply rounds_finite h (magnitude_pos e hm).le
      have hgrid : gridExponent (m * 2 ^ e) = e := by
        obtain ⟨hlt, he, hnormal⟩ := h
        have := Nat.log2_lt hm.ne' (k := 52)
        have := Nat.log2_lt hm.ne' (k := 53)
        rw [gridExponent_magnitude hm]
        omega
      exact (roundMagnitude_of_mem_grid (by rw [hgrid])).symm

theorem rounds_roundWithAccuracy (s : Sign) {m : ℕ} {e : ℤ} {acc : Accuracy} {x : ℝ} (hx : 0 < x)
    (h : Places (.ofMantissaAndAccuracy m acc) (x / 2 ^ e)) (he : e ≤ gridExponent x) :
    Rounds (roundWithAccuracy Format.binary64 s m e acc) (signed s x) := by
  obtain ⟨hzero, hx₀⟩ | ⟨m', e', hm', hfinite, hcanonical, hvalue⟩ :=
    roundWithAccuracy_spec s hx h he
  · rw [hzero]
    refine ⟨by simp [repacked_zero], ?_⟩
    rw [repacked_zero, unpackedValue_zero, round_signed hx.le, hx₀]
    simp [overflow]
  · rw [hfinite]
    exact rounds_finite hcanonical hx.le hvalue

private theorem places_magnitude (m : ℕ) (e : ℤ) :
    Places (.ofMantissaAndAccuracy m .exact) ((m * 2 ^ e : ℝ) / 2 ^ e) := by
  rw [mul_div_cancel_right₀ _ (by positivity)]
  exact places_exact m

/-! ## Products and quotients -/

theorem rounds_mul_finite (s t : Sign) {m m' : ℕ} {e e' : ℤ} {hm : 0 < m} {hm' : 0 < m'}
    (h : Canonical (.finite s m e hm)) (h' : Canonical (.finite t m' e' hm')) :
    Rounds (roundWithAccuracy Format.binary64 (s * t) (m * m') (e + e') .exact)
      (unpackedValue (.finite s m e hm) * unpackedValue (.finite t m' e' hm')) := by
  have hvalue : unpackedValue (.finite s m e hm) * unpackedValue (.finite t m' e' hm') =
      signed (s * t) (((m * m' : ℕ) * 2 ^ (e + e') : ℝ) : EReal) := by
    have hproduct : ((m * m' : ℕ) * 2 ^ (e + e') : ℝ) = (m * 2 ^ e) * (m' * 2 ^ e') := by
      rw [zpow_add₀ (by norm_num)]
      push_cast
      ring
    rw [hproduct, EReal.coe_mul, signed_mul]
    rfl
  have hmm : 0 < m * m' := Nat.mul_pos hm hm'
  rw [hvalue]
  apply rounds_roundWithAccuracy _ (magnitude_pos _ hmm) (places_magnitude _ _)
  rw [gridExponent_magnitude hmm]
  -- of two factors off the smallest grid one has all its digits
  obtain ⟨-, he, hnormal⟩ := h
  obtain ⟨-, he', hnormal'⟩ := h'
  by_cases hsmall : e + e' ≤ -1074
  · omega
  · have hlarge : 2 ^ 52 ≤ m * m' := by
      obtain hn | hn := hnormal
      · exact hn.trans (Nat.le_mul_of_pos_right m hm')
      · obtain hn' | hn' := hnormal'
        · exact hn'.trans (Nat.le_mul_of_pos_left m' hm)
        · omega
    have := (Nat.le_log2 hmm.ne').mpr hlarge
    omega

private theorem rounds_infinity {s : Sign} {x : EReal} (h : signed s ⊤ = x) :
    Rounds (.infinity s) x := by
  rw [← h]
  exact rounds_self trivial (by simp)

private theorem rounds_zero (s : Sign) {x : EReal} (h : x = 0) : Rounds (.zero s) x := by
  rw [h]
  exact rounds_self trivial (by simp)

private theorem signed_top (s : Sign) : signed s ⊤ = ⊤ ∨ signed s ⊤ = ⊥ := by
  cases s
  · exact .inr rfl
  · exact .inl rfl

def ZeroTimesInfinity (x y : EReal) : Prop := (x = 0 ∧ (y = ⊤ ∨ y = ⊥)) ∨ ((x = ⊤ ∨ x = ⊥) ∧ y = 0)

theorem mul_spec {a b : UnpackedFloat} (ha : Canonical a) (hb : Canonical b)
    (hna : a ≠ .notANumber) (hnb : b ≠ .notANumber) :
    Rounds (UnpackedFloat.mul Format.binary64 a b) (unpackedValue a * unpackedValue b) ∨
      UnpackedFloat.mul Format.binary64 a b = .notANumber ∧
        ZeroTimesInfinity (unpackedValue a) (unpackedValue b) := by
  cases a with
  | notANumber => exact absurd rfl hna
  | infinity s =>
      cases b with
      | notANumber => exact absurd rfl hnb
      | infinity t => exact .inl (rounds_infinity (by rw [← EReal.top_mul_top, signed_mul]; rfl))
      | zero t => exact .inr ⟨rfl, .inr ⟨signed_top s, rfl⟩⟩
      | finite t m e hm =>
          refine .inl (rounds_infinity ?_)
          rw [← EReal.top_mul_coe_of_pos (magnitude_pos e hm), signed_mul]
          rfl
  | zero s =>
      cases b with
      | notANumber => exact absurd rfl hnb
      | infinity t => exact .inr ⟨rfl, .inl ⟨rfl, signed_top t⟩⟩
      | zero t => exact .inl (rounds_zero _ (by simp))
      | finite t m e hm => exact .inl (rounds_zero _ (by simp))
  | finite s m e hm =>
      cases b with
      | notANumber => exact absurd rfl hnb
      | infinity t =>
          refine .inl (rounds_infinity ?_)
          rw [← EReal.coe_mul_top_of_pos (magnitude_pos e hm), signed_mul]
          rfl
      | zero t => exact .inl (rounds_zero _ (by simp))
      | finite t m' e' hm' => exact .inl (rounds_mul_finite s t ha hb)

private theorem places_fraction (n : ℕ) {d : ℕ} (hd : 0 < d) :
    Places (.ofMantissaAndAccuracy (n / d) (accuracyOfFraction (n % d) d)) (n / d : ℝ) := by
  have hpos : (0 : ℝ) < d := Nat.cast_pos.mpr hd
  have hsplit : (n : ℝ) / d = (n / d : ℕ) + ((n % d : ℕ) : ℝ) / d := by
    have : (n : ℝ) = d * (n / d : ℕ) + (n % d : ℕ) := by
      exact_mod_cast (Nat.div_add_mod n d).symm
    rw [this]
    field_simp
  have hlt : ((n % d : ℕ) : ℝ) / d < 1 := by
    rw [div_lt_one hpos]
    exact_mod_cast Nat.mod_lt n hd
  rw [hsplit, accuracyOfFraction]
  split_ifs with hzero
  · rw [hzero]
    simpa using places_exact (n / d)
  have hfraction : 0 < ((n % d : ℕ) : ℝ) / d := by
    have : 0 < n % d := Nat.pos_of_ne_zero hzero
    positivity
  obtain h | h | h := lt_trichotomy (2 * (n % d)) d
  · have hhalf : 2 * (((n % d : ℕ) : ℝ) / d) < 1 := by
      rw [← mul_div_assoc, div_lt_one hpos]
      exact_mod_cast h
    rw [compare_lt_iff_lt.mpr h]
    exact places_lt (by linarith) (by linarith)
  · have hhalf : 2 * (((n % d : ℕ) : ℝ) / d) = 1 := by
      rw [← mul_div_assoc, div_eq_one_iff_eq hpos.ne']
      exact_mod_cast h
    rw [compare_eq_iff_eq.mpr h]
    exact places_half (by linarith)
  · have hhalf : 1 < 2 * (((n % d : ℕ) : ℝ) / d) := by
      rw [← mul_div_assoc, one_lt_div hpos]
      exact_mod_cast h
    rw [compare_gt_iff_gt.mpr h]
    exact places_gt (by linarith) (by linarith)

theorem signed_div (s t : Sign) (x y : EReal) :
    signed (s / t) (x / y) = signed s x / signed t y := by
  have hinv : signed t y⁻¹ = (signed t y)⁻¹ := by
    cases t
    · exact (EReal.inv_neg y).symm
    · rfl
  have hsign : s / t = s * t := by
    cases s <;> cases t <;> rfl
  rw [hsign, div_eq_mul_inv, signed_mul, hinv, ← div_eq_mul_inv]

private theorem le_log_div (e e' : ℤ) {m m' : ℕ} (hm : 0 < m) (hm' : 0 < m') :
    (m.log2 + e : ℤ) - (m'.log2 + e') - 1 ≤ Int.log 2 ((m * 2 ^ e) / (m' * 2 ^ e') : ℝ) := by
  have hpos := magnitude_pos e hm
  have hpos' := magnitude_pos e' hm'
  rw [← Int.zpow_le_iff_le_log (by norm_num) (by positivity), le_div_iff₀ hpos']
  have hle : ((2 ^ m.log2 : ℕ) : ℝ) ≤ m := Nat.cast_le.mpr (Nat.log2_self_le hm.ne')
  have hlt : (m' : ℝ) ≤ ((2 ^ (m'.log2 + 1) : ℕ) : ℝ) := Nat.cast_le.mpr Nat.lt_log2_self.le
  push_cast at hle hlt ⊢
  calc (2 : ℝ) ^ ((m.log2 + e : ℤ) - (m'.log2 + e') - 1) * (m' * 2 ^ e')
      ≤ 2 ^ ((m.log2 + e : ℤ) - (m'.log2 + e') - 1) * (2 ^ (m'.log2 + 1) * 2 ^ e') := by
        gcongr
    _ = 2 ^ m.log2 * 2 ^ e := by
        rw [← zpow_natCast, ← zpow_natCast, ← zpow_add₀ (by norm_num), ← zpow_add₀ (by norm_num),
          ← zpow_add₀ (by norm_num)]
        congr 1
        push_cast
        ring
    _ ≤ m * 2 ^ e := by
        gcongr

theorem rounds_div_finite (s t : Sign) {m m' : ℕ} {e e' : ℤ} (hm : 0 < m) (hm' : 0 < m') :
    Rounds (UnpackedFloat.div Format.binary64 (.finite s m e hm) (.finite t m' e' hm'))
      (unpackedValue (.finite s m e hm) / unpackedValue (.finite t m' e' hm')) := by
  have hvalue : unpackedValue (.finite s m e hm) / unpackedValue (.finite t m' e' hm') =
      signed (s / t) (((m * 2 ^ e) / (m' * 2 ^ e') : ℝ) : EReal) := by
    rw [EReal.coe_div, signed_div]
    rfl
  rw [hvalue, UnpackedFloat.div, divCore]
  have htarget := min_le_left (e - e')
    (Format.binary64.targetExponent (totalExponent m e - totalExponent m' e'))
  have hgrid : min (e - e')
      (Format.binary64.targetExponent (totalExponent m e - totalExponent m' e')) ≤
        gridExponent ((m * 2 ^ e) / (m' * 2 ^ e')) := by
    apply (min_le_right _ _).trans
    have hbits : Format.binary64.mantissaBits = 53 := rfl
    have hmin : Format.binary64.minExponent = -1074 := rfl
    have := le_log_div e e' hm hm'
    rw [Format.targetExponent, totalExponent, totalExponent, hbits, hmin, gridExponent]
    omega
  generalize min (e - e')
    (Format.binary64.targetExponent (totalExponent m e - totalExponent m' e')) = g at htarget hgrid
  obtain ⟨k, hk⟩ : ∃ k : ℕ, e - e' = g + k := ⟨(e - e' - g).toNat, by omega⟩
  have hshift : (e - e' - g).toNat = k := by
    omega
  have hpos := magnitude_pos e hm
  have hpos' := magnitude_pos e' hm'
  have hquotient : ((m * 2 ^ e) / (m' * 2 ^ e') : ℝ) / 2 ^ g = ((m <<< k : ℕ) : ℝ) / m' := by
    have : (m' : ℝ) ≠ 0 := by
      positivity
    have hexponent : e = g + k + e' := by
      omega
    rw [Nat.shiftLeft_eq, hexponent, zpow_add₀ (by norm_num), zpow_add₀ (by norm_num), zpow_natCast]
    push_cast
    field_simp
  simp only [hshift]
  refine rounds_roundWithAccuracy _ (by positivity) ?_ hgrid
  rw [hquotient]
  exact places_fraction _ hm'

theorem div_spec {a b : UnpackedFloat} (hna : a ≠ .notANumber) (hnb : b ≠ .notANumber)
    (hb : unpackedValue b ≠ 0) :
    Rounds (UnpackedFloat.div Format.binary64 a b) (unpackedValue a / unpackedValue b) ∨
      UnpackedFloat.div Format.binary64 a b = .notANumber ∧
        (unpackedValue a = ⊤ ∨ unpackedValue a = ⊥) ∧
        (unpackedValue b = ⊤ ∨ unpackedValue b = ⊥) := by
  cases b with
  | notANumber => exact absurd rfl hnb
  | zero t => exact absurd rfl hb
  | infinity t =>
      have hinv : (unpackedValue (.infinity t))⁻¹ = 0 := by
        cases t <;> rfl
      cases a with
      | notANumber => exact absurd rfl hna
      | infinity s => exact .inr ⟨rfl, signed_top s, signed_top t⟩
      | zero s => exact .inl (rounds_zero _ (by rw [div_eq_mul_inv, hinv, mul_zero]))
      | finite s m e hm => exact .inl (rounds_zero _ (by rw [div_eq_mul_inv, hinv, mul_zero]))
  | finite t m e hm =>
      cases a with
      | notANumber => exact absurd rfl hna
      | infinity s =>
          refine .inl (rounds_infinity ?_)
          rw [← EReal.top_div_of_pos_ne_top (EReal.coe_pos.mpr (magnitude_pos e hm))
            (EReal.coe_ne_top _), signed_div]
          rfl
      | zero s => exact .inl (rounds_zero _ (by simp))
      | finite s m' e' hm' => exact .inl (rounds_div_finite s t hm' hm)

/-! ## Sums and differences -/

theorem rounds_round (s : Sign) {m : ℕ} (hm : 0 < m) (e : ℤ) :
    Rounds (UnpackedFloat.round Format.binary64 s m e) (signed s ((m * 2 ^ e : ℝ) : EReal)) := by
  unfold UnpackedFloat.round decreaseExponent
  rw [targetExponent_eq, ← gridExponent_magnitude hm]
  dsimp only
  generalize hk : (e - gridExponent (m * 2 ^ e)).toNat = k
  have hvalue : ((m <<< k : ℕ) * 2 ^ (e - k) : ℝ) = m * 2 ^ e := by
    rw [Nat.shiftLeft_eq, zpow_sub₀ (by norm_num), zpow_natCast]
    push_cast
    field_simp
  have hplaces := places_magnitude (m <<< k) (e - k)
  rw [hvalue] at hplaces
  exact rounds_roundWithAccuracy s (magnitude_pos e hm) hplaces (by omega)

theorem rounds_normalize (z : ℤ) (e : ℤ) :
    Rounds (UnpackedFloat.normalize Format.binary64 z e .positive) ((z * 2 ^ e : ℝ) : EReal) := by
  unfold UnpackedFloat.normalize
  obtain hz | rfl | hz := lt_trichotomy z 0
  · rw [compare_lt_iff_lt.mpr hz]
    have hround := rounds_round .negative (m := (-z).toNat) (by omega) e
    have hcast : (((-z).toNat : ℕ) : ℝ) = -z := by
      have : (((-z).toNat : ℤ) : ℝ) = ((-z : ℤ) : ℝ) := by
        rw [Int.toNat_of_nonneg (by omega)]
      exact_mod_cast this
    have hneg : signed .negative (((-z : ℝ) * 2 ^ e : ℝ) : EReal) = ((z * 2 ^ e : ℝ) : EReal) := by
      rw [neg_mul, EReal.coe_neg]
      exact neg_neg _
    rwa [hcast, hneg] at hround
  · simp only [compare_eq_iff_eq.mpr, Int.cast_zero, zero_mul]
    exact rounds_zero _ rfl
  · rw [compare_gt_iff_gt.mpr hz]
    have hround := rounds_round .positive (m := z.toNat) (by omega) e
    have hcast : ((z.toNat : ℕ) : ℝ) = z := by
      have : ((z.toNat : ℤ) : ℝ) = (z : ℝ) := by
        rw [Int.toNat_of_nonneg (by omega)]
      exact_mod_cast this
    rwa [hcast] at hround

private theorem unpackedValue_finite_eq (s : Sign) {m : ℕ} {e g : ℤ} (hm : 0 < m) (hg : g ≤ e) :
    unpackedValue (.finite s m e hm) =
      (((s.apply (m <<< (e - g).toNat : ℕ) : ℤ) * 2 ^ g : ℝ) : EReal) := by
  obtain ⟨k, rfl⟩ : ∃ k : ℕ, e = g + k := ⟨(e - g).toNat, by omega⟩
  have hshift : (g + k - g).toNat = k := by
    omega
  have hvalue : (m * 2 ^ (g + k : ℤ) : ℝ) = ((m <<< k : ℕ) : ℝ) * 2 ^ g := by
    rw [Nat.shiftLeft_eq, zpow_add₀ (by norm_num), zpow_natCast]
    push_cast
    ring
  rw [hshift, unpackedValue, dyadic, hvalue]
  cases s
  · simp only [signed, Sign.apply, Int.cast_neg, Int.cast_natCast, neg_mul, EReal.coe_neg]
  · simp only [signed, Sign.apply, Int.cast_natCast]

theorem add_spec {a b : UnpackedFloat} (ha : Canonical a) (hb : Canonical b)
    (hna : a ≠ .notANumber) (hnb : b ≠ .notANumber) :
    Rounds (UnpackedFloat.add Format.binary64 a b) (unpackedValue a + unpackedValue b) ∨
      UnpackedFloat.add Format.binary64 a b = .notANumber ∧
        (unpackedValue a = ⊤ ∧ unpackedValue b = ⊥ ∨
          unpackedValue a = ⊥ ∧ unpackedValue b = ⊤) := by
  cases a with
  | notANumber => exact absurd rfl hna
  | infinity s =>
      cases b with
      | notANumber => exact absurd rfl hnb
      | infinity t =>
          cases s
          · cases t
            · exact .inl (rounds_infinity rfl)
            · exact .inr ⟨rfl, .inr ⟨rfl, rfl⟩⟩
          · cases t
            · exact .inr ⟨rfl, .inl ⟨rfl, rfl⟩⟩
            · exact .inl (rounds_infinity rfl)
      | zero t => exact .inl (rounds_infinity (add_zero _).symm)
      | finite t m e hm =>
          cases s
          · exact .inl (rounds_infinity (EReal.bot_add _).symm)
          · refine .inl (rounds_infinity ?_)
            exact (EReal.top_add_of_ne_bot (bot_lt_unpackedValue_finite e hm t).ne').symm
  | zero s =>
      cases b with
      | notANumber => exact absurd rfl hnb
      | infinity t => exact .inl (rounds_infinity (zero_add _).symm)
      | zero t =>
          refine .inl ?_
          unfold UnpackedFloat.add
          dsimp only
          split_ifs
          · exact rounds_zero _ (add_zero _)
          · exact rounds_zero _ (add_zero _)
      | finite t m e hm =>
          rw [unpackedValue_zero, zero_add]
          exact .inl (rounds_self hb hnb)
  | finite s m e hm =>
      cases b with
      | notANumber => exact absurd rfl hnb
      | infinity t =>
          cases t
          · exact .inl (rounds_infinity (EReal.add_bot _).symm)
          · refine .inl (rounds_infinity ?_)
            exact (EReal.add_top_of_ne_bot (bot_lt_unpackedValue_finite e hm s).ne').symm
      | zero t =>
          rw [unpackedValue_zero, add_zero]
          exact .inl (rounds_self ha hna)
      | finite t m' e' hm' =>
          rw [unpackedValue_finite_eq s hm (min_le_left e e'),
            unpackedValue_finite_eq t hm' (min_le_right e e'), ← EReal.coe_add, ← add_mul]
          refine .inl ?_
          exact_mod_cast rounds_normalize (s.apply (m <<< (e - min e e').toNat : ℕ) +
            t.apply (m' <<< (e' - min e e').toNat : ℕ)) (min e e')

theorem sub_eq_add (a b : UnpackedFloat) :
    UnpackedFloat.sub Format.binary64 a b = UnpackedFloat.add Format.binary64 a b.neg := by
  cases a with
  | notANumber => cases b <;> rfl
  | infinity s => cases b <;> rfl
  | zero s => cases b <;> rfl
  | finite s m e hm =>
      cases b with
      | notANumber => rfl
      | infinity t => rfl
      | zero t => rfl
      | finite t m' e' hm' =>
          have hsign (n : ℕ) : (-t).apply n = -t.apply n := by
            cases t
            · exact (neg_neg (n : ℤ)).symm
            · rfl
          simp only [UnpackedFloat.sub, UnpackedFloat.add, UnpackedFloat.neg, hsign, sub_eq_add_neg]

theorem unpackedValue_neg (u : UnpackedFloat) : unpackedValue u.neg = -unpackedValue u := by
  cases u with
  | notANumber => exact neg_zero.symm
  | infinity s => exact signed_neg s _
  | zero s => exact neg_zero.symm
  | finite s m e hm => exact signed_neg s _

theorem canonical_neg {u : UnpackedFloat} (h : Canonical u) : Canonical u.neg := by
  cases u <;> exact h

theorem sub_spec {a b : UnpackedFloat} (ha : Canonical a) (hb : Canonical b)
    (hna : a ≠ .notANumber) (hnb : b ≠ .notANumber) :
    Rounds (UnpackedFloat.sub Format.binary64 a b) (unpackedValue a - unpackedValue b) ∨
      UnpackedFloat.sub Format.binary64 a b = .notANumber ∧
        (unpackedValue a = ⊤ ∧ unpackedValue b = ⊤ ∨
          unpackedValue a = ⊥ ∧ unpackedValue b = ⊥) := by
  have hneg : b.neg ≠ .notANumber := by
    cases b <;> simp_all [UnpackedFloat.neg]
  rw [sub_eq_add, sub_eq_add_neg, ← unpackedValue_neg]
  obtain hrounds | ⟨hnan, h⟩ := add_spec ha (canonical_neg hb) hna hneg
  · exact .inl hrounds
  · rw [unpackedValue_neg, EReal.neg_eq_bot_iff, EReal.neg_eq_top_iff] at h
    exact .inr ⟨hnan, h⟩

/-! ## Square roots -/

private theorem places_sqrt (n : ℕ) :
    Places (.ofMantissaAndAccuracy n.sqrt
      (if n - n.sqrt * n.sqrt = 0 then .exact
        else .inexact (if n - n.sqrt * n.sqrt ≤ n.sqrt then .lt else .gt))) √n := by
  have hle : n.sqrt * n.sqrt ≤ n := Nat.sqrt_le n
  have hlt : n < (n.sqrt + 1) * (n.sqrt + 1) := Nat.lt_succ_sqrt n
  obtain ⟨d, hd⟩ : ∃ d, n = n.sqrt * n.sqrt + d := ⟨n - n.sqrt * n.sqrt, by omega⟩
  have hsub : n - n.sqrt * n.sqrt = d := by
    omega
  have hroot : √(n : ℝ) * √n = (n.sqrt : ℝ) * n.sqrt + d := by
    rw [Real.mul_self_sqrt (Nat.cast_nonneg n)]
    exact_mod_cast hd
  have hnonneg : 0 ≤ √(n : ℝ) := Real.sqrt_nonneg _
  rw [hsub]
  generalize n.sqrt = q at hle hlt hd hroot
  have hq : (0 : ℝ) ≤ q := Nat.cast_nonneg q
  split_ifs with hzero hhalf
  · have heq : √(n : ℝ) = q := by
      rw [hzero, Nat.cast_zero, add_zero] at hroot
      nlinarith
    rw [heq]
    exact places_exact q
  · have hpos : (1 : ℝ) ≤ d := by
      exact_mod_cast Nat.one_le_iff_ne_zero.mpr hzero
    have hhalf : (d : ℝ) ≤ q := by
      exact_mod_cast hhalf
    have hgt : (q : ℝ) < √n := by
      nlinarith
    have hlt : √(n : ℝ) < q + 1 / 2 := by
      nlinarith
    exact places_lt hgt hlt
  · have hhalf : (q : ℝ) + 1 ≤ d := by
      exact_mod_cast Nat.lt_of_not_le hhalf
    have hd : (d : ℝ) < 2 * q + 1 := by
      have : d < 2 * q + 1 := by
        nlinarith
      exact_mod_cast this
    have hgt : (q : ℝ) + 1 / 2 < √n := by
      nlinarith
    have hlt : √(n : ℝ) < q + 1 := by
      nlinarith
    exact places_gt hgt hlt

private theorem le_log_sqrt {m : ℕ} (hm : 0 < m) (e : ℤ) :
    (m.log2 + 1 + e + 1) / 2 - 1 ≤ Int.log 2 √(m * 2 ^ e : ℝ) := by
  have hpos := magnitude_pos e hm
  rw [← Int.zpow_le_iff_le_log (by norm_num) (Real.sqrt_pos.mpr hpos)]
  apply Real.le_sqrt_of_sq_le
  push_cast
  calc ((2 : ℝ) ^ ((m.log2 + 1 + e + 1) / 2 - 1)) ^ 2
      = 2 ^ (2 * ((m.log2 + 1 + e + 1) / 2 - 1)) := by
        rw [← zpow_natCast, ← zpow_mul, mul_comm]
        rfl
    _ ≤ 2 ^ (m.log2 + e : ℤ) := by
        apply zpow_le_zpow_right₀ (by norm_num)
        omega
    _ = (2 ^ m.log2 : ℕ) * 2 ^ e := by
        rw [zpow_add₀ (by norm_num), zpow_natCast, Nat.cast_pow, Nat.cast_ofNat]
    _ ≤ m * 2 ^ e := by
        have := Nat.log2_self_le hm.ne'
        gcongr

theorem rounds_sqrt {m : ℕ} (hm : 0 < m) (e : ℤ) :
    Rounds (UnpackedFloat.sqrt Format.binary64 (.finite .positive m e hm))
      ((√(m * 2 ^ e : ℝ) : ℝ) : EReal) := by
  have hpos := magnitude_pos e hm
  have htarget := min_le_left (e / 2)
    (Format.binary64.targetExponent ((totalExponent m e + 1) / 2))
  have hgrid : min (e / 2) (Format.binary64.targetExponent ((totalExponent m e + 1) / 2)) ≤
      gridExponent √(m * 2 ^ e : ℝ) := by
    apply (min_le_right _ _).trans
    have hbits : Format.binary64.mantissaBits = 53 := rfl
    have hmin : Format.binary64.minExponent = -1074 := rfl
    have := le_log_sqrt hm e
    rw [Format.targetExponent, totalExponent, hbits, hmin, gridExponent]
    omega
  change Rounds (roundWithAccuracy Format.binary64 .positive
    (m <<< (e - 2 * min (e / 2)
      (Format.binary64.targetExponent ((totalExponent m e + 1) / 2))).toNat).sqrt
    (min (e / 2) (Format.binary64.targetExponent ((totalExponent m e + 1) / 2))) _) _
  generalize min (e / 2) (Format.binary64.targetExponent ((totalExponent m e + 1) / 2)) = g
    at htarget hgrid ⊢
  obtain ⟨k, rfl⟩ : ∃ k : ℕ, e = 2 * g + k := ⟨(e - 2 * g).toNat, by omega⟩
  have hshift : (2 * g + k - 2 * g).toNat = k := by
    omega
  have hroot : √(m * 2 ^ (2 * g + k : ℤ) : ℝ) / 2 ^ g = √((m <<< k : ℕ) : ℝ) := by
    have hsplit : (m * 2 ^ (2 * g + k : ℤ) : ℝ) = ((m <<< k : ℕ) : ℝ) * (2 ^ g) ^ 2 := by
      rw [Nat.shiftLeft_eq, zpow_add₀ (by norm_num), zpow_natCast, mul_comm 2 g, zpow_mul]
      push_cast
      rw [zpow_ofNat]
      ring
    rw [hsplit, Real.sqrt_mul (Nat.cast_nonneg _), Real.sqrt_sq (by positivity),
      mul_div_cancel_right₀ _ (by positivity)]
  have hplaces := places_sqrt (m <<< k)
  rw [← hroot] at hplaces
  rw [hshift]
  exact rounds_roundWithAccuracy .positive (Real.sqrt_pos.mpr hpos) hplaces hgrid

end Minima.Double
