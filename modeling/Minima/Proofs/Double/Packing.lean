import Minima.Proofs.Double.Unpacked

/-!
# Packed doubles

What the bits of a double unpack to is canonical and below `2 ^ 1024`.  Packing
keeps a canonical float of that size and makes a larger one infinite.
-/

namespace Minima.Double

open Float.Model Float.Model.UnpackedFloat

/-! ## The three parts of a word -/

theorem unpackSign_packComponents {spec : Format} (s : Sign) (exponent : BitVec spec.exponentBits)
    (mantissa : BitVec spec.mantissaBitsWithoutImplicit) :
    unpackSign (packComponents spec s exponent mantissa) = s.toBitVec := by
  ext i hi
  have hmantissa : ¬ spec.mantissaBitsWithoutImplicit + spec.exponentBits + i <
      spec.mantissaBitsWithoutImplicit := by
    omega
  have hexponent : spec.mantissaBitsWithoutImplicit + spec.exponentBits + i -
      spec.mantissaBitsWithoutImplicit = spec.exponentBits + i := by
    omega
  simp [unpackSign, packComponents, BitVec.getLsbD_append, hmantissa, hexponent,
    BitVec.getLsbD_eq_getElem hi]

theorem unpack_packComponents (s : Sign) (exponent : BitVec 11) (mantissa : BitVec 52) :
    UnpackedFloat.unpack Format.binary64 (packComponents Format.binary64 s exponent mantissa) =
      if exponent = -1#11 then
        if mantissa = 0#52 then .infinity s else .notANumber
      else if exponent = 0#11 then
        if h : mantissa = 0#52 then .zero s
        else .finite s mantissa.toNat (-1074) (by simpa [BitVec.toNat_pos, BitVec.pos_iff_ne_zero])
      else
        .finite s (2 ^ 52 + mantissa.toNat) (exponent.toNat - 1075) (by omega) := by
  have hsign : Sign.ofBitVec s.toBitVec = s := by
    cases s <;> rfl
  have hbias : (Format.binary64.exponentBias : ℤ) + Format.binary64.mantissaBitsWithoutImplicit =
      1075 := rfl
  have himplicit : (1#1 ++ mantissa).toNat = 2 ^ 52 + mantissa.toNat := by
    rw [BitVec.toNat_append, ← Nat.shiftLeft_add_eq_or_of_lt mantissa.isLt]
    rfl
  unfold UnpackedFloat.unpack
  simp only [unpackExponent_packComponents, unpackMantissa_packComponents,
    unpackSign_packComponents, hsign, hbias]
  split_ifs with hones hzero hzero' hzero
  · rfl
  · rfl
  · rfl
  · subst hzero'
    rfl
  · simp only [himplicit]

/-! ## There and back -/

def repacked (u : UnpackedFloat) : UnpackedFloat :=
  UnpackedFloat.unpack Format.binary64 (UnpackedFloat.pack Format.binary64 u)

theorem repacked_infinity (s : Sign) : repacked (.infinity s) = .infinity s := by
  cases s <;> rfl

theorem repacked_notANumber : repacked .notANumber = .notANumber := rfl

theorem repacked_zero (s : Sign) : repacked (.zero s) = .zero s := by
  cases s <;> rfl

private theorem finite_congr {s : Sign} {m m' : ℕ} {e e' : ℤ} {hm : 0 < m} {hm' : 0 < m'}
    (h : m = m') (he : e = e') : UnpackedFloat.finite s m e hm = .finite s m' e' hm' := by
  subst h he
  rfl

theorem repacked_finite {s : Sign} {m : ℕ} {e : ℤ} {hm : 0 < m}
    (h : Canonical (.finite s m e hm)) :
    repacked (.finite s m e hm) = if 972 ≤ e then .infinity s else .finite s m e hm := by
  obtain ⟨hlt, he, hnormal⟩ := h
  have hbias : (e + Format.binary64.exponentBias +
      Format.binary64.mantissaBitsWithoutImplicit).toNat = (e + 1075).toNat := by
    rw [add_assoc]
    rfl
  have hbits : Format.binary64.mantissaBits = 53 := rfl
  have htop : (2 ^ 11 ≤ (e + 1075).toNat + 1) ↔ 972 ≤ e := by
    omega
  have hlog : m.log2 + 1 = 53 ↔ 2 ^ 52 ≤ m := by
    have := Nat.log2_lt hm.ne' (k := 52)
    have := Nat.log2_lt hm.ne' (k := 53)
    omega
  simp only [repacked, UnpackedFloat.pack, hbias, hbits, htop, hlog]
  split_ifs with hlarge hmant
  · exact repacked_infinity s
  · -- the leading digit is left out of the word
    have hexponent : (BitVec.ofNat 11 (e + 1075).toNat).toNat = (e + 1075).toNat := by
      rw [BitVec.toNat_ofNat, Nat.mod_eq_of_lt (by omega)]
    have hmantissa : (BitVec.ofNat 52 m).toNat = m - 2 ^ 52 := by
      rw [BitVec.toNat_ofNat]
      omega
    have hones : BitVec.ofNat 11 (e + 1075).toNat ≠ -1#11 := by
      intro hones
      have : (-1#11).toNat = 2047 := rfl
      rw [hones] at hexponent
      omega
    have hzero : BitVec.ofNat 11 (e + 1075).toNat ≠ 0#11 := by
      intro hzero
      have : (0#11).toNat = 0 := rfl
      rw [hzero] at hexponent
      omega
    rw [unpack_packComponents, if_neg hones, if_neg hzero]
    exact finite_congr (by omega) (by omega)
  · have hmantissa : (BitVec.ofNat 52 m).toNat = m := by
      rw [BitVec.toNat_ofNat]
      omega
    have hzero : BitVec.ofNat 52 m ≠ 0#52 := by
      intro hzero
      have : (0#52).toNat = 0 := rfl
      rw [hzero] at hmantissa
      omega
    rw [unpack_packComponents, if_neg (by decide), if_pos rfl, dif_neg hzero]
    exact finite_congr hmantissa (by omega)

theorem dyadic_lt {m : ℕ} {e : ℤ} (hm : m < 2 ^ 53) (he : e ≤ 971) : dyadic m e < 2 ^ 1024 := by
  calc (m * 2 ^ e : ℝ) < (2 ^ 53 : ℕ) * 2 ^ e := by
        gcongr
    _ ≤ (2 ^ 53 : ℕ) * 2 ^ (971 : ℤ) := by
        gcongr
        · norm_num
    _ = 2 ^ 1024 := by
        rw [show (971 : ℤ) = (971 : ℕ) from rfl, zpow_natCast, Nat.cast_pow, Nat.cast_ofNat,
          ← pow_add]

theorem unpackedValue_repacked_finite {s : Sign} {m : ℕ} {e : ℤ} {hm : 0 < m}
    (h : Canonical (.finite s m e hm)) :
    unpackedValue (repacked (.finite s m e hm)) = signed s (overflow (m * 2 ^ e)) := by
  rw [repacked_finite h]
  obtain ⟨hlt, he, hnormal⟩ := h
  split_ifs with hlarge
  · have hmant : 2 ^ 52 ≤ m := hnormal.resolve_right (by omega)
    have hover : ¬ (m * 2 ^ e : ℝ) < 2 ^ 1024 := by
      rw [not_lt]
      calc (2 ^ 1024 : ℝ) = (2 ^ 52 : ℕ) * 2 ^ (972 : ℤ) := by
            rw [show (972 : ℤ) = (972 : ℕ) from rfl, zpow_natCast, Nat.cast_pow, Nat.cast_ofNat,
              ← pow_add]
        _ ≤ m * 2 ^ e := by
            gcongr
            norm_num
    rw [overflow, if_neg hover]
    rfl
  · rw [overflow, if_pos (dyadic_lt hlt (by omega))]
    rfl

/-! ## What unpacks -/

theorem canonical_unpack (b : BitVec Format.binary64.numBits) :
    Canonical (UnpackedFloat.unpack Format.binary64 b) := by
  have hbias : (Format.binary64.exponentBias : ℤ) + Format.binary64.mantissaBitsWithoutImplicit =
      1075 := rfl
  unfold UnpackedFloat.unpack
  simp only [hbias]
  have hmantissa : (unpackMantissa b).toNat < 2 ^ 52 := (unpackMantissa b).isLt
  split_ifs with hones hzero hzero' hzero
  · exact trivial
  · exact trivial
  · exact trivial
  · have hexponent : (unpackExponent b).toNat = 0 := congrArg BitVec.toNat hzero'
    exact ⟨by omega, by omega, .inr (by omega)⟩
  · have himplicit : (1#1 ++ unpackMantissa b).toNat = 2 ^ 52 + (unpackMantissa b).toNat := by
      rw [BitVec.toNat_append, ← Nat.shiftLeft_add_eq_or_of_lt (unpackMantissa b).isLt]
      rfl
    have hexponent : (unpackExponent b).toNat ≠ 0 := fun h => hzero' (BitVec.eq_of_toNat_eq h)
    exact ⟨by omega, by omega, .inl (by omega)⟩

end Minima.Double
