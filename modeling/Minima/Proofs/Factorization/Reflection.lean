import Mathlib.Tactic.FieldSimp
import Mathlib.Tactic.Linarith
import Minima.Factorization.Householder
import Minima.Proofs.Exact.Vec

/-!
# Reflections in exact arithmetic

A vector whose first entry is half of its squared length reflects: applied
twice it changes nothing, and it keeps inner products.  The reflector computed
for a vector is of that kind and takes the vector to the first axis.
-/

namespace Minima

/-- The first entry is half of the squared length, unless it is zero and the
reflection leaves everything in place. -/
def IsReflector (w : Vec ℝ) : Prop :=
  ∀ lead rest, w = lead :: rest → lead ≠ 0 → Vec.dot w w = lead + lead

variable {w u v : Vec ℝ}

theorem reflect_of_zero {lead : ℝ} {rest : Vec ℝ} (h : lead = 0) (v : Vec ℝ) :
    reflect (lead :: rest) v = v := by
  simp [reflect, h]

theorem reflect_of_ne_zero {lead : ℝ} {rest : Vec ℝ} (h : lead ≠ 0) (v : Vec ℝ) :
    reflect (lead :: rest) v =
      Vec.accumulate (-(Vec.dot v (lead :: rest) / lead)) (lead :: rest) v := by
  simp [reflect, h]

theorem length_reflect {α : Type} [Scalar α] {w v : Vec α} (h : w.length = v.length) :
    (reflect w v).length = v.length := by
  fun_cases reflect w v with
  | case1 => rfl
  | case2 => rfl
  | case3 => rw [Vec.accumulate, List.length_zipWith, h, Nat.min_self]

theorem dot_reflect_left (hw : w.length = v.length) {lead : ℝ} {rest : Vec ℝ}
    (h : w = lead :: rest) (hl : lead ≠ 0) (u : Vec ℝ) :
    Vec.dot (reflect w v) u = Vec.dot v u - Vec.dot v w / lead * Vec.dot w u := by
  subst h
  rw [reflect_of_ne_zero hl, Vec.dot_accumulate_left hw]
  ring

theorem dot_reflect_reflect (hw : IsReflector w) (hu : w.length = u.length)
    (hv : w.length = v.length) :
    Vec.dot (reflect w u) (reflect w v) = Vec.dot u v := by
  cases w with
  | nil => rfl
  | cons lead rest =>
      by_cases hl : lead = 0
      · rw [reflect_of_zero hl, reflect_of_zero hl]
      · have hww := hw lead rest rfl hl
        rw [dot_reflect_left hu rfl hl, Vec.dot_comm u, Vec.dot_comm (lead :: rest) (reflect _ v),
          dot_reflect_left hv rfl hl, dot_reflect_left hv rfl hl, hww, Vec.dot_comm v u,
          Vec.dot_comm (lead :: rest) u]
        field_simp
        ring

theorem reflect_reflect (hw : IsReflector w) (hv : w.length = v.length) :
    reflect w (reflect w v) = v := by
  cases w with
  | nil => rfl
  | cons lead rest =>
      by_cases hl : lead = 0
      · rw [reflect_of_zero hl, reflect_of_zero hl]
      · have hww := hw lead rest rfl hl
        have hcoefficient : Vec.dot (reflect (lead :: rest) v) (lead :: rest) / lead =
            -(Vec.dot v (lead :: rest) / lead) := by
          rw [dot_reflect_left hv rfl hl, hww]
          field_simp
          ring
        rw [reflect_of_ne_zero hl (reflect _ v), hcoefficient, reflect_of_ne_zero hl]
        apply List.ext_getElem
        · simp [Vec.accumulate, hv]
        · intro i _ _
          simp [Vec.accumulate]

theorem reflect_accumulate (hu : w.length = u.length) (hv : w.length = v.length) (s : ℝ) :
    reflect w (Vec.accumulate s u v) = Vec.accumulate s (reflect w u) (reflect w v) := by
  cases w with
  | nil => rfl
  | cons lead rest =>
      by_cases hl : lead = 0
      · simp only [reflect_of_zero hl]
      · simp only [reflect_of_ne_zero hl]
        rw [Vec.dot_accumulate_left (hu.symm.trans hv)]
        apply List.ext_getElem
        · simp only [Vec.accumulate, List.length_zipWith]
          omega
        · intro i _ _
          simp only [Vec.accumulate, List.getElem_zipWith]
          ring

/-! ## The reflector of a vector -/

namespace Factorization

theorem length_reflectorOf {α : Type} [Scalar α] (norm : Norm) (x : Vec α) :
    (reflectorOf norm x).2.length = x.length := by
  fun_cases reflectorOf norm x with
  | case1 => rfl
  | case2 => rfl
  | case3 => simp [Vec.divide]

private noncomputable def signedLength (lead : ℝ) (rest : Vec ℝ) : ℝ :=
  if lead < 0 then -Vec.norm (lead :: rest) else Vec.norm (lead :: rest)

private theorem signedLength_mul_self (lead : ℝ) (rest : Vec ℝ) :
    signedLength lead rest * signedLength lead rest = lead * lead + Vec.dot rest rest := by
  have h := Vec.norm_mul_self (lead :: rest)
  rw [Vec.dot_cons_cons] at h
  by_cases hl : lead < 0 <;> simp [signedLength, hl, h]

private theorem lead_div_signedLength_nonneg (lead : ℝ) (rest : Vec ℝ) :
    0 ≤ lead / signedLength lead rest := by
  have h : 0 ≤ Vec.norm (lead :: rest) := Real.sqrt_nonneg _
  unfold signedLength
  split_ifs with hl
  · exact div_nonneg_of_nonpos hl.le (neg_nonpos.mpr h)
  · exact div_nonneg (not_lt.mp hl) h

private theorem reflectorOf_of_norm_ne_zero {lead : ℝ} {rest : Vec ℝ}
    (h : Vec.norm (lead :: rest) ≠ 0) :
    reflectorOf .plain (lead :: rest) =
      (-signedLength lead rest,
        (lead / signedLength lead rest + 1) :: Vec.divide rest (signedLength lead rest)) := by
  simp [reflectorOf, Norm.length, h, signedLength]

theorem isReflector_reflectorOf (x : Vec ℝ) : IsReflector (reflectorOf .plain x).2 := by
  cases x with
  | nil => simp [reflectorOf, IsReflector]
  | cons lead rest =>
      by_cases h : Vec.norm (lead :: rest) = 0
      · intro lead' rest' hw hl
        have hx : (reflectorOf .plain (lead :: rest)).2 = lead :: rest := by
          simp [reflectorOf, Norm.length, h]
        rw [hx, Vec.norm_eq_zero_iff.mp h, Vec.zeros, List.length_cons,
          List.replicate_succ] at hw
        simp only [List.cons.injEq] at hw
        exact absurd hw.1.symm hl
      · rw [reflectorOf_of_norm_ne_zero h]
        intro lead' rest' hw _
        simp only [List.cons.injEq] at hw
        obtain ⟨rfl, rfl⟩ := hw
        have hs := signedLength_mul_self lead rest
        have hne : signedLength lead rest ≠ 0 := by
          unfold signedLength
          split_ifs <;> simpa using h
        have hrest : Vec.dot (Vec.divide rest (signedLength lead rest))
            (Vec.divide rest (signedLength lead rest)) =
              Vec.dot rest rest / (signedLength lead rest * signedLength lead rest) := by
          rw [Vec.dot_divide_left, Vec.dot_comm, Vec.dot_divide_left, div_div]
        rw [Vec.dot_cons_cons, hrest]
        field_simp
        linarith

/-- The reflector of a vector takes it to the first axis. -/
theorem reflect_reflectorOf (lead : ℝ) (rest : Vec ℝ) :
    reflect (reflectorOf .plain (lead :: rest)).2 (lead :: rest) =
      (reflectorOf .plain (lead :: rest)).1 :: Vec.zeros rest.length := by
  by_cases h : Vec.norm (lead :: rest) = 0
  · have hx : reflectorOf .plain (lead :: rest) = (0, lead :: rest) := by
      simp [reflectorOf, Norm.length, h]
    have hz := Vec.norm_eq_zero_iff.mp h
    rw [Vec.zeros, List.length_cons, List.replicate_succ, List.cons.injEq] at hz
    rw [hx, reflect_of_zero hz.1, hz.1]
    simp only [List.cons.injEq, true_and]
    exact hz.2
  · rw [reflectorOf_of_norm_ne_zero h]
    have hs := signedLength_mul_self lead rest
    have hne : signedLength lead rest ≠ 0 := by
      unfold signedLength
      split_ifs <;> simpa using h
    have hlead : lead / signedLength lead rest + 1 ≠ 0 :=
      ne_of_gt (add_pos_of_nonneg_of_pos (lead_div_signedLength_nonneg lead rest) one_pos)
    have hdot : Vec.dot (lead :: rest) ((lead / signedLength lead rest + 1) ::
        Vec.divide rest (signedLength lead rest)) =
          signedLength lead rest * (lead / signedLength lead rest + 1) := by
      rw [Vec.dot_cons_cons, Vec.dot_comm rest, Vec.dot_divide_left]
      field_simp
      linarith
    rw [reflect_of_ne_zero hlead, hdot, mul_div_assoc, div_self hlead, mul_one,
      Vec.accumulate_cons_cons]
    congr 1
    · field_simp
      ring
    · apply List.ext_getElem
      · simp [Vec.accumulate, Vec.divide]
      · intro i _ _
        simp only [Vec.accumulate, Vec.divide, Vec.zeros, List.getElem_zipWith, List.getElem_map,
          List.getElem_replicate]
        field_simp
        ring

end Factorization

end Minima
