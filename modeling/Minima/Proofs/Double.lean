import Minima.Double
import Minima.Proofs.Double.Operations
import Minima.Proofs.Ordered

/-!
# Doubles by their values

Comparisons of doubles compare their values, operations round the exact result.
-/

namespace Minima.Double

open Float.Model Float.Model.UnpackedFloat

noncomputable def value (a : Float) : EReal := unpackedValue a.toModel.unpack

def IsDefined (a : Float) : Prop := a.toModel.unpack ≠ .notANumber

theorem canonical (a : Float) : Canonical a.toModel.unpack := canonical_unpack _

/-! ## Comparisons -/

theorem le_iff {a b : Float} : a ≤ b ↔ IsDefined a ∧ IsDefined b ∧ value a ≤ value b := by
  have hle : a ≤ b ↔ UnpackedFloat.le a.toModel.unpack b.toModel.unpack = true := by
    change decide (a.toModel ≤ b.toModel) = true ↔ _
    rw [decide_eq_true_iff]
    rfl
  rw [hle, UnpackedFloat.le]
  by_cases ha : a.toModel.unpack = .notANumber
  · simp [ha, UnpackedFloat.compare, IsDefined]
  by_cases hb : b.toModel.unpack = .notANumber
  · rw [hb]
    cases a.toModel.unpack <;> simp [UnpackedFloat.compare, IsDefined, hb]
  obtain ⟨o, ho, hcompares⟩ := compare_spec (canonical a) (canonical b) ha hb
  rw [ho]
  simp only [Option.any_some, IsDefined, ne_eq, ha, hb, not_false_eq_true, true_and]
  rw [value, value, ← hcompares.ne_gt]
  cases o <;> simp

theorem lt_iff {a b : Float} : a < b ↔ IsDefined a ∧ IsDefined b ∧ value a < value b := by
  have hlt : a < b ↔ UnpackedFloat.lt a.toModel.unpack b.toModel.unpack = true := by
    change decide (a.toModel < b.toModel) = true ↔ _
    rw [decide_eq_true_iff]
    rfl
  rw [hlt, UnpackedFloat.lt]
  by_cases ha : a.toModel.unpack = .notANumber
  · simp [ha, UnpackedFloat.compare, IsDefined]
  by_cases hb : b.toModel.unpack = .notANumber
  · rw [hb]
    cases a.toModel.unpack <;> simp [UnpackedFloat.compare, IsDefined, hb]
  obtain ⟨o, ho, hcompares⟩ := compare_spec (canonical a) (canonical b) ha hb
  rw [ho]
  simp only [IsDefined, ne_eq, ha, hb, not_false_eq_true, true_and]
  rw [value, value, ← hcompares.eq_lt]
  cases o <;> simp

theorem isFinite_iff {a : Float} :
    a.isFinite = true ↔ IsDefined a ∧ value a ≠ ⊤ ∧ value a ≠ ⊥ := by
  have hfinite : a.isFinite = a.toModel.unpack.isFinite := rfl
  rw [hfinite, IsDefined, value]
  cases a.toModel.unpack with
  | notANumber => simp [UnpackedFloat.isFinite]
  | infinity s => cases s <;> simp [UnpackedFloat.isFinite]
  | zero s => simp [UnpackedFloat.isFinite]
  | finite s m e hm =>
      simp [UnpackedFloat.isFinite, (unpackedValue_finite_lt_top e hm s).ne,
        (bot_lt_unpackedValue_finite e hm s).ne']

/-! ## Operations -/

theorem unpack_mul (a b : Float) : (a * b).toModel.unpack =
    repacked (UnpackedFloat.mul Format.binary64 a.toModel.unpack b.toModel.unpack) := rfl

theorem unpack_div (a b : Float) : (a / b).toModel.unpack =
    repacked (UnpackedFloat.div Format.binary64 a.toModel.unpack b.toModel.unpack) := rfl

theorem unpack_sub (a b : Float) : (a - b).toModel.unpack =
    repacked (UnpackedFloat.sub Format.binary64 a.toModel.unpack b.toModel.unpack) := rfl

theorem unpack_add (a b : Float) : (a + b).toModel.unpack =
    repacked (UnpackedFloat.add Format.binary64 a.toModel.unpack b.toModel.unpack) := rfl

private theorem isDefined_of_strict {op : UnpackedFloat → UnpackedFloat → UnpackedFloat}
    {a b c : Float} (hleft : ∀ u, op .notANumber u = .notANumber)
    (hright : ∀ u, op u .notANumber = .notANumber)
    (hc : c.toModel.unpack = repacked (op a.toModel.unpack b.toModel.unpack)) (h : IsDefined c) :
    IsDefined a ∧ IsDefined b := by
  rw [IsDefined, hc] at h
  constructor
  · intro ha
    rw [ha, hleft] at h
    exact h repacked_notANumber
  · intro hb
    rw [hb, hright] at h
    exact h repacked_notANumber

theorem isDefined_of_mul {a b : Float} (h : IsDefined (a * b)) : IsDefined a ∧ IsDefined b :=
  isDefined_of_strict (fun u => by cases u <;> rfl) (fun u => by cases u <;> rfl) (unpack_mul a b) h

theorem isDefined_of_div {a b : Float} (h : IsDefined (a / b)) : IsDefined a ∧ IsDefined b :=
  isDefined_of_strict (fun u => by cases u <;> rfl) (fun u => by cases u <;> rfl) (unpack_div a b) h

theorem isDefined_of_sub {a b : Float} (h : IsDefined (a - b)) : IsDefined a ∧ IsDefined b :=
  isDefined_of_strict (fun u => by cases u <;> rfl) (fun u => by cases u <;> rfl) (unpack_sub a b) h

theorem isDefined_of_add {a b : Float} (h : IsDefined (a + b)) : IsDefined a ∧ IsDefined b :=
  isDefined_of_strict (fun u => by cases u <;> rfl) (fun u => by cases u <;> rfl) (unpack_add a b) h

theorem value_mul {a b : Float} (h : IsDefined (a * b)) :
    value (a * b) = round (value a * value b) := by
  obtain ⟨ha, hb⟩ := isDefined_of_mul h
  obtain hrounds | ⟨hnan, -⟩ := mul_spec (canonical a) (canonical b) ha hb
  · exact hrounds.2
  · rw [IsDefined, unpack_mul, hnan] at h
    exact absurd repacked_notANumber h

theorem isDefined_mul {a b : Float} (ha : IsDefined a) (hb : IsDefined b)
    (h : ¬ ZeroTimesInfinity (value a) (value b)) : IsDefined (a * b) := by
  obtain hrounds | ⟨-, hzero⟩ := mul_spec (canonical a) (canonical b) ha hb
  · exact hrounds.1
  · exact absurd hzero h

theorem value_div {a b : Float} (h : IsDefined (a / b)) (hb₀ : value b ≠ 0) :
    value (a / b) = round (value a / value b) := by
  obtain ⟨ha, hb⟩ := isDefined_of_div h
  obtain hrounds | ⟨hnan, -⟩ := div_spec ha hb hb₀
  · exact hrounds.2
  · rw [IsDefined, unpack_div, hnan] at h
    exact absurd repacked_notANumber h

theorem isDefined_div {a b : Float} (ha : IsDefined a) (hb : b.isFinite = true)
    (hb₀ : value b ≠ 0) : IsDefined (a / b) := by
  obtain ⟨hb, htop, hbot⟩ := isFinite_iff.mp hb
  obtain hrounds | ⟨-, -, hinfinite⟩ := div_spec ha hb hb₀
  · exact hrounds.1
  · exact absurd hinfinite (not_or.mpr ⟨htop, hbot⟩)

theorem value_sub {a b : Float} (h : IsDefined (a - b)) :
    value (a - b) = round (value a - value b) := by
  obtain ⟨ha, hb⟩ := isDefined_of_sub h
  obtain hrounds | ⟨hnan, -⟩ := sub_spec (canonical a) (canonical b) ha hb
  · exact hrounds.2
  · rw [IsDefined, unpack_sub, hnan] at h
    exact absurd repacked_notANumber h

theorem value_add {a b : Float} (h : IsDefined (a + b)) :
    value (a + b) = round (value a + value b) := by
  obtain ⟨ha, hb⟩ := isDefined_of_add h
  obtain hrounds | ⟨hnan, -⟩ := add_spec (canonical a) (canonical b) ha hb
  · exact hrounds.2
  · rw [IsDefined, unpack_add, hnan] at h
    exact absurd repacked_notANumber h

theorem add_of_ne {a b : Float} (ha : IsDefined a) (hb : IsDefined b) (ha' : value a ≠ ⊥)
    (hb' : value b ≠ ⊥) : IsDefined (a + b) ∧ value (a + b) = round (value a + value b) := by
  obtain hrounds | ⟨-, h | h⟩ := add_spec (canonical a) (canonical b) ha hb
  · exact hrounds
  · exact absurd h.2 hb'
  · exact absurd h.1 ha'

theorem add_mono_of_ne_bot {a b c d : Float} (hac : a ≤ c) (hbd : b ≤ d) (ha : value a ≠ ⊥)
    (hb : value b ≠ ⊥) : a + b ≤ c + d := by
  obtain ⟨ha', hc', hac⟩ := le_iff.mp hac
  obtain ⟨hb', hd', hbd⟩ := le_iff.mp hbd
  obtain ⟨hab, hvalue⟩ := add_of_ne ha' hb' ha hb
  obtain ⟨hcd, hvalue'⟩ :=
    add_of_ne hc' hd' (ne_bot_of_le_ne_bot ha hac) (ne_bot_of_le_ne_bot hb hbd)
  refine le_iff.mpr ⟨hab, hcd, ?_⟩
  rw [hvalue, hvalue']
  exact round_mono (add_le_add hac hbd)

theorem unpack_sqrt (a : Float) : (Float.sqrt a).toModel.unpack =
    repacked (UnpackedFloat.sqrt Format.binary64 a.toModel.unpack) := rfl

theorem value_sqrt_nonneg {a : Float} (h : IsDefined (Float.sqrt a)) :
    0 ≤ value (Float.sqrt a) := by
  rw [IsDefined, unpack_sqrt] at h
  rw [value, unpack_sqrt]
  generalize a.toModel.unpack = u at h ⊢
  cases u with
  | notANumber => exact absurd repacked_notANumber h
  | infinity s =>
      cases s
      · exact absurd repacked_notANumber h
      · exact le_top
  | zero s =>
      have hzero : UnpackedFloat.sqrt Format.binary64 (.zero s) = .zero s := rfl
      rw [hzero, repacked_zero, unpackedValue_zero]
  | finite s m e hm =>
      cases s
      · exact absurd repacked_notANumber h
      · rw [(rounds_sqrt hm e).2]
        exact round_nonneg (EReal.coe_nonneg.mpr (Real.sqrt_nonneg _))

/-! ## Literals -/

theorem isDefined_of_le {a b : Float} (h : a ≤ b) : IsDefined a ∧ IsDefined b :=
  ⟨(le_iff.mp h).1, (le_iff.mp h).2.1⟩

@[simp] theorem value_zero : value 0 = 0 := rfl

theorem isDefined_zero : IsDefined 0 := (isDefined_of_le (by decide +kernel : (0 : Float) ≤ 0)).1

theorem value_one : value 1 = 1 := by
  have hunpack : (1 : Float).toModel.unpack = .finite .positive (2 ^ 52) (-52) (by decide) := by
    rfl
  have hmagnitude : ((2 ^ 52 : ℕ) * 2 ^ (-52 : ℤ) : ℝ) = 1 := by
    norm_num
  rw [value, hunpack, unpackedValue, dyadic, hmagnitude]
  rfl

theorem isFinite_half : Float.isFinite 0.5 = true := by decide +kernel

theorem value_half_pos : 0 < value 0.5 := (lt_iff.mp (by decide +kernel : (0 : Float) < 0.5)).2.2

/-! ## Squares and halves -/

theorem isDefined_mul_self {a : Float} (h : IsDefined a) : IsDefined (a * a) := by
  apply isDefined_mul h h
  rintro (⟨hzero, htop | hbot⟩ | ⟨htop | hbot, hzero⟩)
  · exact EReal.zero_ne_top (hzero.symm.trans htop)
  · exact EReal.zero_ne_bot (hzero.symm.trans hbot)
  · exact EReal.zero_ne_top (hzero.symm.trans htop)
  · exact EReal.zero_ne_bot (hzero.symm.trans hbot)

theorem value_mul_self {a : Float} (h : IsDefined a) :
    value (a * a) = round (value a * value a) :=
  value_mul (isDefined_mul_self h)

theorem value_mul_self_nonneg {a : Float} (h : IsDefined a) : 0 ≤ value (a * a) := by
  rw [value_mul_self h]
  apply round_nonneg
  rw [EReal.mul_nonneg_iff]
  obtain ha | ha := le_total 0 (value a)
  · exact .inl ⟨ha, ha⟩
  · exact .inr ⟨ha, ha⟩

theorem isDefined_mul_half {a : Float} (h : IsDefined a) : IsDefined (a * 0.5) := by
  obtain ⟨hhalf, htop, hbot⟩ := isFinite_iff.mp isFinite_half
  apply isDefined_mul h hhalf
  rintro (⟨-, h | h⟩ | ⟨-, h⟩)
  · exact htop h
  · exact hbot h
  · exact value_half_pos.ne' h

end Minima.Double

namespace Minima

open Double

instance : OrderedScalar Float where
  le_refl_left h := le_iff.mpr ⟨(isDefined_of_le h).1, (isDefined_of_le h).1, le_rfl⟩
  le_refl_right h := le_iff.mpr ⟨(isDefined_of_le h).2, (isDefined_of_le h).2, le_rfl⟩
  le_trans h₁ h₂ := le_iff.mpr
    ⟨(isDefined_of_le h₁).1, (isDefined_of_le h₂).2, (le_iff.mp h₁).2.2.trans (le_iff.mp h₂).2.2⟩
  le_total {a b} ha hb := by
    have ha := (isDefined_of_le ha).1
    have hb := (isDefined_of_le hb).1
    obtain h | h := le_total (value a) (value b)
    · exact .inl (le_iff.mpr ⟨ha, hb, h⟩)
    · exact .inr (le_iff.mpr ⟨hb, ha, h⟩)
  lt_iff_le_not_ge {a b} := by
    rw [lt_iff, le_iff, le_iff, lt_iff_le_not_ge]
    tauto
  le_refl_of_isFinite h := le_iff.mpr ⟨(isFinite_iff.mp h).1, (isFinite_iff.mp h).1, le_rfl⟩
  isFinite_of_le_of_le {a b c} ha hc hab hbc := by
    obtain ⟨-, -, hbot⟩ := isFinite_iff.mp ha
    obtain ⟨-, htop, -⟩ := isFinite_iff.mp hc
    obtain ⟨-, hb, hab⟩ := le_iff.mp hab
    obtain ⟨-, -, hbc⟩ := le_iff.mp hbc
    exact isFinite_iff.mpr ⟨hb, ne_top_of_le_ne_top htop hbc, ne_bot_of_le_ne_bot hbot hab⟩
  isFinite_smallest := by decide +kernel
  zero_lt_smallest := by decide +kernel
  zero_lt_tenThousandth := by decide +kernel
  neg_one_le_zero := by decide +kernel
  le_refl_of_mul h := by
    obtain ⟨ha, hb⟩ := isDefined_of_mul (isDefined_of_le h).1
    exact ⟨le_iff.mpr ⟨ha, ha, le_rfl⟩, le_iff.mpr ⟨hb, hb, le_rfl⟩⟩
  le_refl_of_div h := by
    obtain ⟨ha, hb⟩ := isDefined_of_div (isDefined_of_le h).1
    exact ⟨le_iff.mpr ⟨ha, ha, le_rfl⟩, le_iff.mpr ⟨hb, hb, le_rfl⟩⟩
  mul_self_nonneg {a} h := by
    have h := (isDefined_of_le h).1
    exact le_iff.mpr ⟨isDefined_zero, isDefined_mul_self h, value_mul_self_nonneg h⟩
  mul_nonneg {a b} ha hb hab := by
    have hab := (isDefined_of_le hab).1
    refine le_iff.mpr ⟨isDefined_zero, hab, ?_⟩
    rw [value_mul hab]
    exact round_nonneg (EReal.mul_nonneg (le_iff.mp ha).2.2 (le_iff.mp hb).2.2)
  mul_self_le_mul_self {a b} ha hab := by
    obtain ⟨-, ha', ha⟩ := le_iff.mp ha
    obtain ⟨-, hb', hab⟩ := le_iff.mp hab
    refine le_iff.mpr ⟨isDefined_mul_self ha', isDefined_mul_self hb', ?_⟩
    rw [value_mul_self ha', value_mul_self hb']
    rw [value_zero] at ha
    exact round_mono (mul_le_mul hab hab ha (ha.trans hab))
  mul_half_le_mul_half {a b} hab := by
    obtain ⟨ha', hb', hab⟩ := le_iff.mp hab
    have ha := isDefined_mul_half ha'
    have hb := isDefined_mul_half hb'
    refine le_iff.mpr ⟨ha, hb, ?_⟩
    rw [value_mul ha, value_mul hb]
    exact round_mono (mul_le_mul_of_nonneg_right hab value_half_pos.le)
  one_le_mul_self {a} ha := by
    obtain ⟨hone, ha', ha⟩ := le_iff.mp ha
    refine le_iff.mpr ⟨hone, isDefined_mul_self ha', ?_⟩
    rw [value_one] at ha ⊢
    rw [value_mul_self ha', ← round_one]
    exact round_mono (one_le_mul_of_one_le_of_one_le ha ha)
  add_nonneg {a b} ha hb := by
    obtain ⟨-, ha', ha⟩ := le_iff.mp ha
    obtain ⟨-, hb', hb⟩ := le_iff.mp hb
    rw [value_zero] at ha hb
    obtain ⟨hab, hvalue⟩ :=
      add_of_ne ha' hb' (EReal.bot_lt_zero.trans_le ha).ne' (EReal.bot_lt_zero.trans_le hb).ne'
    refine le_iff.mpr ⟨isDefined_zero, hab, ?_⟩
    rw [hvalue]
    exact round_nonneg (add_nonneg ha hb)
  lt_of_sub_pos {a b} h := by
    obtain ⟨-, hab, h⟩ := lt_iff.mp h
    obtain ⟨ha, hb⟩ := isDefined_of_sub hab
    rw [value_zero, value_sub hab] at h
    exact lt_iff.mpr ⟨hb, ha, EReal.sub_pos.mp (pos_of_round_pos h)⟩
  div_half_nonneg {a} ha := by
    obtain ⟨-, ha', ha⟩ := le_iff.mp ha
    have hdiv := isDefined_div ha' isFinite_half value_half_pos.ne'
    refine le_iff.mpr ⟨isDefined_zero, hdiv, ?_⟩
    rw [value_div hdiv value_half_pos.ne']
    exact round_nonneg (EReal.div_nonneg ha value_half_pos.le)
  one_le_div {a b} hb hfinite hab := by
    obtain ⟨-, -, hpos⟩ := lt_iff.mp hb
    obtain ⟨-, ha', hab⟩ := le_iff.mp hab
    obtain ⟨-, htop, -⟩ := isFinite_iff.mp hfinite
    rw [value_zero] at hpos
    have hdiv := isDefined_div ha' hfinite hpos.ne'
    refine le_iff.mpr ⟨(isDefined_of_le (by decide +kernel : (1 : Float) ≤ 1)).1, hdiv, ?_⟩
    rw [value_div hdiv hpos.ne', value_one, ← round_one]
    apply round_mono
    rwa [EReal.le_div_iff_mul_le hpos htop, one_mul]
  pos_of_div_pos {a b} hb h := by
    obtain ⟨-, -, hpos⟩ := lt_iff.mp hb
    obtain ⟨-, hdiv, h⟩ := lt_iff.mp h
    rw [value_zero] at hpos
    rw [value_zero, value_div hdiv hpos.ne'] at h
    refine lt_iff.mpr ⟨isDefined_zero, (isDefined_of_div hdiv).1, ?_⟩
    by_contra ha
    exact (pos_of_round_pos h).not_ge
      (EReal.div_nonpos_of_nonpos_of_nonneg (not_lt.mp ha) hpos.le)
  sqrt_nonneg h := by
    have h := (isDefined_of_le h).1
    exact le_iff.mpr ⟨isDefined_zero, h, value_sqrt_nonneg h⟩

end Minima
