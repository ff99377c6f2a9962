import Mathlib.LinearAlgebra.LinearIndependent.Lemmas
import Minima.Proofs.Factorization.Undamped

/-!
# Where substitution stops

Back substitution uses the lines in front of the first zero on the diagonal.  The columns that
belong to them are linearly independent and the next column depends on them, and the point that is
found satisfies the normal equations of these columns.
-/

namespace Minima

open Matrix

variable {m n r : Nat} {ι : Type}

/-! ## The lines in front of the first zero -/

namespace Line

theorem diagonal_ne_zero_of_lt {lines : List (Line ℝ)} {i : Nat}
    (hi : i < (regular lines).length) :
    (lines.get ⟨i, hi.trans_le (length_regular_le lines)⟩).diagonal ≠ 0 := by
  have hprefix : regular lines <+: lines := List.takeWhile_prefix _
  rw [List.get_eq_getElem, ← hprefix.getElem hi]
  simpa using List.mem_takeWhile_imp (List.getElem_mem hi)

theorem diagonal_eq_zero {lines : List (Line ℝ)} (h : (regular lines).length < lines.length) :
    lines[(regular lines).length].diagonal = 0 := by
  induction lines with
  | nil => cases h
  | cons l lines ih =>
      by_cases hdiagonal : l.diagonal = 0
      · have hregular : regular (l :: lines) = [] :=
          List.takeWhile_cons_of_neg (by simpa using hdiagonal)
        simpa [hregular] using hdiagonal
      · have hregular : regular (l :: lines) = l :: regular lines :=
          List.takeWhile_cons_of_pos (by simpa using hdiagonal)
        simp only [hregular, List.length_cons, List.getElem_cons_succ] at h ⊢
        exact ih (Nat.lt_of_succ_lt_succ h)

theorem getElem_solveRegular (lines : List (Line ℝ)) (rhs : Vec ℝ) {j : Nat}
    (hj : (regular lines).length ≤ j) (h : j < (solveRegular lines rhs).length) :
    (solveRegular lines rhs)[j] = 0 := by
  have hle := (length_solveUpper_le (regular lines) rhs).trans hj
  simp only [solveRegular, List.getElem_append_right hle, Vec.zeros, List.getElem_replicate]

end Line

/-- A lower triangular matrix without a zero in the first `r` places of the diagonal, and with one
in the next. -/
structure StopsAt (L : Matrix (Fin n) (Fin n) ℝ) (r : Nat) : Prop where
  triangular : L.IsLowerTriangular
  diagonal_ne_zero : ∀ i : Fin n, i < r → L i i ≠ 0
  diagonal_eq_zero : ∀ i : Fin n, i = r → L i i = 0

section lines

variable {lines : List (Line ℝ × ℝ)} {L : Matrix (Fin n) (Fin n) ℝ}
  (hL : Line.lowerMatrix (lines.map (·.1)) = .ofMatrix L)
include hL

theorem stopsAt_of_lowerMatrix : StopsAt L (Line.regular (lines.map (·.1))).length := by
  have hlength := length_of_lowerMatrix hL
  refine ⟨isLowerTriangular_of_lowerMatrix hL, fun i hi => ?_, fun i hi => ?_⟩
  · rw [← diagonal_of_lowerMatrix hL i (i.isLt.trans_eq hlength.symm)]
    simpa using Line.diagonal_ne_zero_of_lt hi
  · have hlt : (Line.regular (lines.map (·.1))).length < (lines.map (·.1)).length := by
      rw [← hi, List.length_map, hlength]
      exact i.isLt
    rw [← diagonal_of_lowerMatrix hL i (i.isLt.trans_eq hlength.symm)]
    simpa [hi] using Line.diagonal_eq_zero hlt

theorem exists_solveRegular {c : Fin n → ℝ} (hc : lines.map (·.2) = List.ofFn c) :
    ∃ z : Fin n → ℝ,
      Line.solveRegular (lines.map (·.1)) (lines.map (·.2)) = List.ofFn z ∧
      (∀ j : Fin n, (Line.regular (lines.map (·.1))).length ≤ j → z j = 0) ∧
      ∀ i : Fin n, i < (Line.regular (lines.map (·.1))).length → (Lᵀ *ᵥ z) i = c i := by
  have hlength := length_of_lowerMatrix hL
  have hz := Vec.ofFn_toFn ((Line.length_solveRegular (lines.map (·.1)) (lines.map (·.2))).trans
    ((List.length_map _).trans hlength))
  generalize Vec.toFn n (Line.solveRegular _ _) = z at hz
  refine ⟨z, hz.symm, fun j hj => ?_, fun i hi => ?_⟩
  · have hzero := Line.getElem_solveRegular (lines.map (·.1)) (lines.map (·.2)) hj
      (by simp [← hz])
    simpa [← hz] using hzero
  · have hvalue := lineValues_solveRegular (i.isLt.trans_eq hlength.symm) fun k hk => by
      simpa using Line.diagonal_ne_zero_of_lt (hk.trans_lt hi)
    rw [← hz, lineValues_ofFn hL hc, List.getElem?_ofFn, dif_pos i.isLt] at hvalue
    have hvalue := Option.some.inj hvalue
    rw [neg_one_smul, ← sub_eq_add_neg] at hvalue
    exact sub_eq_zero.mp hvalue

end lines

/-! ## The columns in front of the first zero -/

variable {W : Matrix ι (Fin n) ℝ} {L : Matrix (Fin n) (Fin n) ℝ}

theorem linearCombination_col (W : Matrix ι (Fin n) ℝ) (v : Fin n →₀ ℝ) :
    Finsupp.linearCombination ℝ W.col v = W *ᵥ v := by
  rw [Finsupp.linearCombination_apply, Finsupp.sum_fintype v _ (fun i => zero_smul ℝ (W.col i)),
    mulVec_eq_sum]
  simp only [op_smul_eq_smul]
  rfl

/-- Linear combinations of some columns are products with vectors that vanish at the others. -/
theorem mem_span_col_iff {s : Set (Fin n)} {y : ι → ℝ} :
    y ∈ Submodule.span ℝ (W.col '' s) ↔ ∃ v : Fin n → ℝ, (∀ i ∉ s, v i = 0) ∧ W *ᵥ v = y := by
  rw [Finsupp.mem_span_image_iff_linearCombination]
  constructor
  · rintro ⟨v, hv, rfl⟩
    exact ⟨v, (Finsupp.mem_supported' ℝ v).mp hv, (linearCombination_col W v).symm⟩
  · rintro ⟨v, hv, rfl⟩
    refine ⟨Finsupp.equivFunOnFinite.symm v, (Finsupp.mem_supported' ℝ _).mpr hv, ?_⟩
    exact linearCombination_col W _

/-- The first `r` columns are linearly independent, and no more of them. -/
structure LeadingColumns (W : Matrix ι (Fin n) ℝ) (r : Nat) : Prop where
  le : r ≤ n
  independent : LinearIndepOn ℝ W.col {i | (i : Nat) < r}
  dependent : ∀ j : Fin n, (j : Nat) = r → W.col j ∈ Submodule.span ℝ (W.col '' {i | (i : Nat) < r})

theorem LeadingColumns.le_of_leading {s : Nat} (h : LeadingColumns W r) (hs : LeadingColumns W s) :
    s ≤ r := by
  by_contra hlt
  have hrs : r < s := not_le.mp hlt
  let j : Fin n := ⟨r, hrs.trans_le hs.le⟩
  refine linearIndepOn_iff_notMem_span.mp hs.independent j hrs ?_
  refine Submodule.span_mono (Set.image_mono ?_) (h.dependent j rfl)
  exact fun i (hi : (i : Nat) < r) => ⟨hi.trans hrs, fun hij => hi.ne (congrArg Fin.val hij)⟩

theorem LeadingColumns.unique {s : Nat} (h : LeadingColumns W r) (hs : LeadingColumns W s) :
    r = s :=
  le_antisymm (hs.le_of_leading h) (h.le_of_leading hs)

theorem mulVec_eq_zero_iff_of_gram [Fintype ι] (hgram : L * Lᵀ = Wᵀ * W) (v : Fin n → ℝ) :
    W *ᵥ v = 0 ↔ Lᵀ *ᵥ v = 0 := by
  rw [← conjTranspose_mul_self_mulVec_eq_zero W, conjTranspose_eq_transpose_of_trivial, ← hgram,
    ← conjTranspose_eq_transpose_of_trivial, self_mul_conjTranspose_mulVec_eq_zero]

namespace StopsAt

variable (h : StopsAt L r)
include h

theorem eq_zero_of_transpose_mulVec {v : Fin n → ℝ} (hv : ∀ j : Fin n, r ≤ j → v j = 0)
    (hzero : Lᵀ *ᵥ v = 0) : v = 0 := by
  by_contra hne
  obtain ⟨k, hk, hlast⟩ := (Set.toFinite {k | v k ≠ 0}).exists_maximal (Function.ne_iff.mp hne)
  have hkr : (k : Nat) < r := by
    by_contra hkr
    exact hk (hv k (Nat.le_of_not_lt hkr))
  -- in the last place that is not zero only the diagonal counts
  have hvalue : (Lᵀ *ᵥ v) k = L k k * v k := by
    change ∑ j, L j k * v j = L k k * v k
    refine Finset.sum_eq_single k (fun j _ hjk => ?_) fun hk => absurd (Finset.mem_univ k) hk
    rcases lt_or_gt_of_ne hjk with hjk | hjk
    · rw [h.triangular hjk, zero_mul]
    · by_cases hj : v j = 0
      · rw [hj, mul_zero]
      · exact absurd (hlast hj hjk.le) (not_le.mpr hjk)
  rw [hzero, Pi.zero_apply, eq_comm, mul_eq_zero] at hvalue
  exact hvalue.elim (h.diagonal_ne_zero k hkr) hk

theorem mulVec_eq_zero {u : Fin n → ℝ} (hu : ∀ i : Fin n, (i : Nat) < r → u i = 0) {i : Fin n}
    (hi : (i : Nat) < r) : (L *ᵥ u) i = 0 := by
  change ∑ k, L i k * u k = 0
  refine Finset.sum_eq_zero fun k _ => ?_
  rcases lt_or_ge i k with hik | hik
  · rw [h.triangular hik, zero_mul]
  · rw [hu k (lt_of_le_of_lt hik hi), mul_zero]

theorem transpose_mulVec_eq_zero {v : Fin n → ℝ} (hv : ∀ j : Fin n, r ≤ j → v j = 0) {i : Fin n}
    (hi : r ≤ i) : (Lᵀ *ᵥ v) i = 0 := by
  change ∑ k, L k i * v k = 0
  refine Finset.sum_eq_zero fun k _ => ?_
  rcases lt_or_ge k i with hki | hki
  · rw [h.triangular hki, zero_mul]
  · rw [hv k (hi.trans hki), mul_zero]

end StopsAt

section lines

variable {lines : List (Line ℝ × ℝ)} (hL : Line.lowerMatrix (lines.map (·.1)) = .ofMatrix L)
include hL

theorem exists_transpose_mulVec (c : Fin n → ℝ) :
    ∃ z : Fin n → ℝ, (∀ j : Fin n, (Line.regular (lines.map (·.1))).length ≤ j → z j = 0) ∧
      ∀ i : Fin n, i < (Line.regular (lines.map (·.1))).length → (Lᵀ *ᵥ z) i = c i := by
  have hlength : (lines.map (·.1)).length = (List.ofFn c).length := by
    rw [List.length_map, length_of_lowerMatrix hL, List.length_ofFn]
  have hfst := List.map_fst_zip hlength.le
  have hsnd := List.map_snd_zip hlength.ge
  rw [← hfst] at hL
  obtain ⟨z, -, hzero, hvalue⟩ := exists_solveRegular hL hsnd
  rw [hfst] at hzero hvalue
  exact ⟨z, hzero, hvalue⟩

theorem leadingColumns_of_lowerMatrix [Fintype ι] (hgram : L * Lᵀ = Wᵀ * W) :
    LeadingColumns W (Line.regular (lines.map (·.1))).length := by
  have hstops := stopsAt_of_lowerMatrix hL
  have hexists := exists_transpose_mulVec hL
  have hle := Line.length_regular_le (lines.map (·.1))
  rw [List.length_map, length_of_lowerMatrix hL] at hle
  generalize (Line.regular (lines.map (·.1))).length = r at hstops hexists hle ⊢
  refine ⟨hle, ?_, fun j hj => ?_⟩
  · rw [linearIndepOn_iff]
    intro v hv hzero
    rw [Finsupp.mem_supported'] at hv
    rw [linearCombination_col, mulVec_eq_zero_iff_of_gram hgram] at hzero
    refine DFunLike.coe_injective ?_
    exact hstops.eq_zero_of_transpose_mulVec (fun j hj => hv j (not_lt.mpr hj)) hzero
  · obtain ⟨z, hzero, hvalue⟩ := hexists (Lᵀ *ᵥ Pi.single j 1)
    refine mem_span_col_iff.mpr ⟨z, fun i hi => hzero i (not_lt.mp hi), ?_⟩
    have hcolumn : Lᵀ *ᵥ (z - Pi.single j 1) = 0 := by
      funext i
      rw [mulVec_sub, Pi.sub_apply, Pi.zero_apply, sub_eq_zero]
      by_cases hi : (i : Nat) < r
      · exact hvalue i hi
      · rw [hstops.transpose_mulVec_eq_zero hzero (not_lt.mp hi), mulVec_single_one]
        change 0 = L j i
        rcases Nat.lt_or_eq_of_le (not_lt.mp hi) with hri | hri
        · exact (hstops.triangular (hj.trans_lt hri)).symm
        · rw [Fin.ext (hri.symm.trans hj.symm), hstops.diagonal_eq_zero j hj]
    rw [← mulVec_eq_zero_iff_of_gram hgram, mulVec_sub, sub_eq_zero, mulVec_single_one] at hcolumn
    exact hcolumn

end lines

end Minima
