import Minima.Proofs.Double.Parts
import Minima.Proofs.Exact.Ordered

/-!
# Zeros

A zero of either sign changes no number that it is added to or subtracted from, and stays zero
whatever finite number it is multiplied by.
-/

namespace Minima

class ZeroScalar (α : Type) [Scalar α] : Prop where
  isZero_neg {a : α} : Scalar.isZero a = true → Scalar.isZero (-a) = true
  isZero_mul {a b : α} : Scalar.isZero a = true → Scalar.isFinite b = true →
    Scalar.isZero (a * b) = true
  same_add {a b : α} : Scalar.isFinite a = true → Scalar.isZero b = true →
    Scalar.same (a + b) a = true
  same_sub {a b : α} : Scalar.isFinite a = true → Scalar.isZero b = true →
    Scalar.same (a - b) a = true

theorem same_iff {α : Type} [Scalar α] {a b : α} : Scalar.same a b = true ↔ a ≤ b ∧ b ≤ a := by
  simp [Scalar.same]

section Order

variable {α : Type} [Scalar α] [OrderedScalar α] {a b c d : α}

theorem same_le_iff (hab : Scalar.same a b = true) (hcd : Scalar.same c d = true) :
    a ≤ c ↔ b ≤ d := by
  obtain ⟨hab, hba⟩ := same_iff.mp hab
  obtain ⟨hcd, hdc⟩ := same_iff.mp hcd
  exact ⟨fun h => OrderedScalar.le_trans hba (OrderedScalar.le_trans h hcd),
    fun h => OrderedScalar.le_trans hab (OrderedScalar.le_trans h hdc)⟩

theorem same_lt_iff (hab : Scalar.same a b = true) (hcd : Scalar.same c d = true) :
    a < c ↔ b < d := by
  rw [OrderedScalar.lt_iff_le_not_ge, OrderedScalar.lt_iff_le_not_ge, same_le_iff hab hcd,
    same_le_iff hcd hab]

end Order

/-! ## Reals -/

theorem same_real {a b : ℝ} : Scalar.same a b = true ↔ a = b :=
  same_iff.trans le_antisymm_iff.symm

instance : ZeroScalar ℝ where
  isZero_neg h := same_real.mpr (by rw [same_real.mp h, neg_zero])
  isZero_mul h _ := same_real.mpr (by rw [same_real.mp h, zero_mul])
  same_add _ h := same_real.mpr (by rw [same_real.mp h, add_zero])
  same_sub _ h := same_real.mpr (by rw [same_real.mp h, sub_zero])

/-! ## Doubles -/

namespace Double

open Float.Model Float.Model.UnpackedFloat

variable {a b : Float}

theorem same_iff_value :
    Scalar.same a b = true ↔ IsDefined a ∧ IsDefined b ∧ value a = value b := by
  rw [same_iff, le_iff, le_iff, le_antisymm_iff]
  tauto

theorem isZero_iff : Scalar.isZero a = true ↔ IsDefined a ∧ value a = 0 := by
  unfold Scalar.isZero
  rw [same_iff_value, value_zero]
  exact ⟨fun h => ⟨h.1, h.2.2⟩, fun h => ⟨h.1, isDefined_zero, h.2⟩⟩

theorem exists_unpack_of_isZero (h : Scalar.isZero a = true) :
    ∃ s, a.toModel.unpack = .zero s := by
  obtain ⟨hdefined, hzero⟩ := isZero_iff.mp h
  unfold IsDefined at hdefined
  unfold value at hzero
  cases hunpack : a.toModel.unpack with
  | notANumber => exact absurd hunpack hdefined
  | zero s => exact ⟨s, rfl⟩
  | infinity s =>
      rw [hunpack] at hzero
      cases s with
      | positive => exact absurd hzero EReal.top_ne_zero
      | negative => exact absurd hzero EReal.bot_ne_zero
  | finite s m e hm =>
      rw [hunpack] at hzero
      cases s with
      | positive => exact absurd hzero (unpackedValue_finite_positive_pos e hm).ne'
      | negative => exact absurd hzero (unpackedValue_finite_negative_neg e hm).ne

theorem isZero_of_unpack {s : Sign} (h : a.toModel.unpack = .zero s) :
    Scalar.isZero a = true := by
  rw [isZero_iff, IsDefined, value, h]
  exact ⟨by rintro ⟨⟩, unpackedValue_zero s⟩

theorem unpack_neg (a : Float) : (-a).toModel.unpack = repacked a.toModel.unpack.neg := rfl

end Double

open Double in
instance : ZeroScalar Float where
  isZero_neg {a} h := by
    obtain ⟨s, hs⟩ := exists_unpack_of_isZero h
    have hneg := unpack_neg a
    rw [hs] at hneg
    exact isZero_of_unpack (hneg.trans (repacked_zero _))
  isZero_mul {a b} h hb := by
    obtain ⟨ha, hzero⟩ := isZero_iff.mp h
    obtain ⟨hb, htop, hbot⟩ := isFinite_iff.mp hb
    have hab : IsDefined (a * b) := by
      refine isDefined_mul ha hb ?_
      rintro (⟨-, hinfinite⟩ | ⟨hinfinite, -⟩)
      · exact not_or.mpr ⟨htop, hbot⟩ hinfinite
      · rw [hzero] at hinfinite
        exact not_or.mpr ⟨EReal.zero_ne_top, EReal.zero_ne_bot⟩ hinfinite
    refine isZero_iff.mpr ⟨hab, ?_⟩
    rw [value_mul hab, hzero, zero_mul, Double.round_zero]
  same_add {a b} ha h := by
    obtain ⟨hb, hzero⟩ := isZero_iff.mp h
    obtain ⟨ha', -, hbot⟩ := isFinite_iff.mp ha
    obtain ⟨hab, hvalue⟩ := add_of_ne ha' hb hbot (by rw [hzero]; exact EReal.zero_ne_bot)
    refine same_iff_value.mpr ⟨hab, ha', ?_⟩
    rw [hvalue, hzero, add_zero, round_value ha]
  same_sub {a b} ha h := by
    obtain ⟨hb, hzero⟩ := isZero_iff.mp h
    obtain ⟨ha', -, -⟩ := isFinite_iff.mp ha
    have hab : IsDefined (a - b) := by
      obtain ⟨hdefined, -⟩ | ⟨-, hinfinite⟩ := sub_spec (canonical a) (canonical b) ha' hb
      · exact hdefined
      · change value a = ⊤ ∧ value b = ⊤ ∨ value a = ⊥ ∧ value b = ⊥ at hinfinite
        rw [hzero] at hinfinite
        simp at hinfinite
    refine same_iff_value.mpr ⟨hab, ha', ?_⟩
    rw [value_sub hab, hzero, sub_zero, round_value ha]

end Minima
