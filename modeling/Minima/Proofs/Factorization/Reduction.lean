import Mathlib.Data.Matrix.Mul
import Mathlib.LinearAlgebra.Matrix.ToLin
import Minima.Proofs.Factorization.Reflection

/-!
# Reduction to a triangle

The reflections of a reduction act on ever shorter vectors.  Together they are
an orthogonal matrix.  Each step splits one more entry off every open column, so
that a column that is chosen in step `i` has become its `i` finished entries, the
diagonal one and zeros: what the transposed reflections make of it.
-/

namespace Minima.Factorization

open Matrix

/-! ## Reflections one below the other -/

/-- The first reflection acts on `m` rows and each further one on one row less. -/
inductive Staircase : Nat → List (Pivot ℝ) → Prop
  | nil (m) : Staircase m []
  | cons {m p pivots} : p.reflector.length = m + 1 → IsReflector p.reflector →
      Staircase m pivots → Staircase (m + 1) (p :: pivots)

variable {m n : Nat} {pivots : List (Pivot ℝ)} {u v : Vec ℝ}

theorem applyTransposed_cons {p : Pivot ℝ} {a : ℝ} (h : reflect p.reflector v = a :: u)
    (pivots : List (Pivot ℝ)) :
    applyTransposed (p :: pivots) v = a :: applyTransposed pivots u := by
  simp [applyTransposed, h]

private theorem reflect_eq_cons {w : Vec ℝ} (hw : w.length = m + 1) (hv : v.length = m + 1) :
    ∃ a u, reflect w v = a :: u ∧ u.length = m := by
  have hlength := length_reflect (hw.trans hv.symm)
  obtain ⟨a, u, hau⟩ := List.exists_cons_of_length_eq_add_one (hlength.trans hv)
  exact ⟨a, u, hau, by simpa [hau, hv] using hlength⟩

theorem length_applyTransposed (h : Staircase m pivots) (hv : v.length = m) :
    (applyTransposed pivots v).length = m := by
  induction h generalizing v with
  | nil => exact hv
  | cons hw _ _ ih =>
      obtain ⟨a, u, hau, hu⟩ := reflect_eq_cons hw hv
      rw [applyTransposed_cons hau]
      simp [ih hu]

theorem length_applyReflections (h : Staircase m pivots) (hv : v.length = m) :
    (applyReflections pivots v).length = m := by
  induction h generalizing v with
  | nil => simpa [applyReflections] using hv
  | @cons m p _ hw _ _ ih =>
      obtain ⟨a, v, rfl⟩ := List.exists_cons_of_length_eq_add_one hv
      have hv : v.length = m := by simpa using hv
      rw [applyReflections, length_reflect] <;> simp [ih hv, hw]

theorem applyReflections_applyTransposed (h : Staircase m pivots) (hv : v.length = m) :
    applyReflections pivots (applyTransposed pivots v) = v := by
  induction h generalizing v with
  | nil => simp [applyReflections, applyTransposed]
  | cons hw hr _ ih =>
      obtain ⟨a, u, hau, hu⟩ := reflect_eq_cons hw hv
      rw [applyTransposed_cons hau, applyReflections, ih hu, ← hau,
        reflect_reflect hr (hw.trans hv.symm)]

theorem dot_applyReflections (h : Staircase m pivots) (hu : u.length = m) (hv : v.length = m) :
    Vec.dot (applyReflections pivots u) (applyReflections pivots v) = Vec.dot u v := by
  induction h generalizing u v with
  | nil => simp [applyReflections]
  | @cons m p _ hw hr hp ih =>
      obtain ⟨a, u, rfl⟩ := List.exists_cons_of_length_eq_add_one hu
      obtain ⟨b, v, rfl⟩ := List.exists_cons_of_length_eq_add_one hv
      have hu : u.length = m := by simpa using hu
      have hv : v.length = m := by simpa using hv
      rw [applyReflections, applyReflections, dot_reflect_reflect hr, Vec.dot_cons_cons,
        Vec.dot_cons_cons, ih hu hv]
      · simp [hw, length_applyReflections hp hu]
      · simp [hw, length_applyReflections hp hv]

theorem applyReflections_accumulate (h : Staircase m pivots) (hu : u.length = m)
    (hv : v.length = m) (s : ℝ) :
    applyReflections pivots (Vec.accumulate s u v) =
      Vec.accumulate s (applyReflections pivots u) (applyReflections pivots v) := by
  induction h generalizing u v with
  | nil => simp [applyReflections]
  | @cons m p _ hw _ hp ih =>
      obtain ⟨a, u, rfl⟩ := List.exists_cons_of_length_eq_add_one hu
      obtain ⟨b, v, rfl⟩ := List.exists_cons_of_length_eq_add_one hv
      have hu : u.length = m := by simpa using hu
      have hv : v.length = m := by simpa using hv
      rw [Vec.accumulate_cons_cons, applyReflections, applyReflections, applyReflections, ih hu hv,
        ← Vec.accumulate_cons_cons, reflect_accumulate]
      · simp [hw, length_applyReflections hp hu]
      · simp [hw, length_applyReflections hp hv]

noncomputable def reflections (h : Staircase m pivots) : (Fin m → ℝ) →ₗ[ℝ] (Fin m → ℝ) :=
  have combine (s : ℝ) (u v : Fin m → ℝ) :
      Vec.toFn m (applyReflections pivots (List.ofFn (s • u + v))) =
        s • Vec.toFn m (applyReflections pivots (List.ofFn u)) +
          Vec.toFn m (applyReflections pivots (List.ofFn v)) := by
    have hlength (w : Fin m → ℝ) : (applyReflections pivots (List.ofFn w)).length = m :=
      length_applyReflections h (by simp)
    rw [← Vec.accumulate_ofFn, applyReflections_accumulate h (by simp) (by simp),
      ← Vec.ofFn_toFn (hlength u), ← Vec.ofFn_toFn (hlength v), Vec.accumulate_ofFn]
    simp only [Vec.toFn_ofFn]
  have zero : Vec.toFn m (applyReflections pivots (List.ofFn 0)) = 0 := by
    simpa using combine 1 0 0
  {
    toFun v := Vec.toFn m (applyReflections pivots (List.ofFn v))
    map_add' u v := by simpa using combine 1 u v
    map_smul' s u := by simpa [zero] using combine s u 0
  }

noncomputable def reflectionMatrix (h : Staircase m pivots) : Matrix (Fin m) (Fin m) ℝ :=
  LinearMap.toMatrix' (reflections h)

theorem applyReflections_ofFn (h : Staircase m pivots) (v : Fin m → ℝ) :
    applyReflections pivots (List.ofFn v) = List.ofFn (reflectionMatrix h *ᵥ v) := by
  rw [reflectionMatrix, ← Matrix.toLin'_apply, Matrix.toLin'_toMatrix']
  exact (Vec.ofFn_toFn (length_applyReflections h (by simp))).symm

theorem reflectionMatrix_orthogonal (h : Staircase m pivots) :
    (reflectionMatrix h)ᵀ * reflectionMatrix h = 1 := by
  have keeps (u v : Fin m → ℝ) :
      (reflectionMatrix h *ᵥ u) ⬝ᵥ (reflectionMatrix h *ᵥ v) = u ⬝ᵥ v := by
    rw [← Vec.dot_ofFn, ← applyReflections_ofFn, ← applyReflections_ofFn,
      dot_applyReflections h (by simp) (by simp), Vec.dot_ofFn]
  ext i j
  have hij := keeps (Pi.single i 1) (Pi.single j 1)
  rw [mulVec_single_one, mulVec_single_one] at hij
  rw [mul_apply', Matrix.one_apply]
  exact hij.trans (by simp [Pi.single_apply, eq_comm])

theorem applyTransposed_ofFn (h : Staircase m pivots) (v : Fin m → ℝ) :
    applyTransposed pivots (List.ofFn v) = List.ofFn ((reflectionMatrix h)ᵀ *ᵥ v) := by
  have hlength : (applyTransposed pivots (List.ofFn v)).length = m :=
    length_applyTransposed h (by simp)
  have hinverse : reflectionMatrix h *ᵥ Vec.toFn m (applyTransposed pivots (List.ofFn v)) = v := by
    have hv := applyReflections_applyTransposed h (v := List.ofFn v) (by simp)
    rw [← Vec.ofFn_toFn hlength, applyReflections_ofFn h] at hv
    exact List.ofFn_injective hv
  rw [← hinverse, mulVec_mulVec, reflectionMatrix_orthogonal, one_mulVec, hinverse,
    Vec.ofFn_toFn hlength]

theorem applyTransposed_zeros (h : Staircase m pivots) :
    applyTransposed pivots (Vec.zeros m) = Vec.zeros m := by
  rw [Vec.zeros_eq_ofFn, applyTransposed_ofFn h]
  congr 1
  exact mulVec_zero _

/-! ## Steps of the reduction -/

theorem swapFront_perm {β : Type} (k : Nat) (l : List β) : (swapFront k l).Perm l := by
  fun_cases swapFront k l with
  | case1 k a rest b hb =>
      obtain ⟨hk, rfl⟩ := List.getElem?_eq_some_iff.mp hb
      exact (((List.set_perm_cons_eraseIdx hk a).cons _).trans (List.Perm.swap ..)).trans
        ((List.getElem_cons_eraseIdx_perm hk).cons a)
  | case2 => rfl
  | case3 => rfl

@[simp] theorem swapFront_zero {β : Type} (l : List β) : swapFront 0 l = l := by
  rw [swapFront]
  simp

def Column.Advances (w : Vec ℝ) (c c' : Column ℝ) : Prop :=
  c'.source = c.source ∧ ∃ lead, reflect w c.rest = lead :: c'.rest ∧ c'.above = c.above ++ [lead]

theorem Column.advances_advance {w : Vec ℝ} {c : Column ℝ} (hw : w.length = m + 1)
    (hc : c.rest.length = m + 1) : c.Advances w (c.advance .plain w) := by
  obtain ⟨lead, rest, hreflect, -⟩ := reflect_eq_cons hw hc
  rw [advance, hreflect]
  exact ⟨rfl, lead, hreflect, rfl⟩

theorem Column.advances_skip {w : Vec ℝ} {c : Column ℝ} (hw : ∀ v, reflect w v = v)
    (hc : c.rest.length = m + 1) : c.Advances w c.skip := by
  obtain ⟨lead, rest, hrest⟩ := List.exists_cons_of_length_eq_add_one hc
  rw [skip, hrest]
  exact ⟨rfl, lead, by rw [hw, hrest], rfl⟩

theorem reflect_reflectorOf_of_norm_eq_zero {x : Vec ℝ} (h : Vec.norm x = 0) (v : Vec ℝ) :
    reflect (reflectorOf .plain x).2 v = v := by
  have hx : (reflectorOf .plain x).2 = x := by simp [reflectorOf, Norm.length, h]
  rw [hx, Vec.norm_eq_zero_iff.mp h]
  cases x with
  | nil => rfl
  | cons lead rest => exact reflect_of_zero rfl v

variable {pivoting : Bool} {columns : List (Column ℝ)}

theorem reduce_succ (pivoting : Bool) (hlength : columns.length = n + 1)
    (hrest : ∀ c ∈ columns, c.rest.length = m + 1) :
    ∃ (c : Column ℝ) (others : List (Column ℝ)) (f : Column ℝ → Column ℝ),
      (c :: others).Perm columns ∧
      (pivoting = false → columns = c :: others) ∧
      (∀ o ∈ others, o.Advances (reflectorOf .plain c.rest).2 (f o)) ∧
      reduce .plain pivoting (n + 1) columns =
        ⟨c.source, c.above, (reflectorOf .plain c.rest).1, (reflectorOf .plain c.rest).2⟩ ::
          reduce .plain pivoting n (others.map f) := by
  generalize hchosen : (if pivoting then Vec.argmax (columns.map (·.length)) else 0) = chosen
  have hperm := swapFront_perm chosen columns
  obtain ⟨c, others, hswap⟩ :=
    List.exists_cons_of_length_eq_add_one (hperm.length_eq.trans hlength)
  have hmem (o : Column ℝ) (ho : o ∈ c :: others) : o.rest.length = m + 1 :=
    hrest o ((hswap ▸ hperm).mem_iff.mp ho)
  have hw : (reflectorOf .plain c.rest).2.length = m + 1 :=
    (length_reflectorOf _ c.rest).trans (hmem c (by simp))
  refine ⟨c, others,
    if Vec.norm c.rest = 0 then Column.skip
    else Column.advance .plain (reflectorOf .plain c.rest).2, hswap ▸ hperm, ?_, ?_, ?_⟩
  · rintro rfl
    obtain rfl : 0 = chosen := by simpa using hchosen
    rw [← hswap, swapFront_zero]
  · intro o ho
    have ho := hmem o (List.mem_cons_of_mem c ho)
    split_ifs with hzero
    · exact Column.advances_skip (reflect_reflectorOf_of_norm_eq_zero hzero) ho
    · exact Column.advances_advance hw ho
  · simp only [reduce, hchosen, hswap, Norm.length, Scalar.isZero_real, decide_eq_true_eq]
    split_ifs <;> rfl

/-! ## The whole reduction -/

/-- The pivots reduce the columns, which have `m` open entries each. -/
structure Reduces (m : Nat) (columns : List (Column ℝ)) (pivots : List (Pivot ℝ)) : Prop where
  staircase : Staircase m pivots
  sources : (pivots.map (·.source)).Perm (columns.map (·.source))
  column : ∀ i, (h : i < pivots.length) → ∃ c ∈ columns, pivots[i].source = c.source ∧
    ∃ finished, finished.length = i ∧ pivots[i].above = c.above ++ finished ∧
      applyTransposed pivots c.rest =
        finished ++ pivots[i].diagonal :: Vec.zeros (m - (i + 1))

theorem Reduces.cons {c : Column ℝ} {others : List (Column ℝ)} {f : Column ℝ → Column ℝ}
    (hperm : (c :: others).Perm columns) (hc : c.rest.length = m + 1)
    (hf : ∀ o ∈ others, o.Advances (reflectorOf .plain c.rest).2 (f o))
    (h : Reduces m (others.map f) pivots) :
    Reduces (m + 1) columns
      (⟨c.source, c.above, (reflectorOf .plain c.rest).1, (reflectorOf .plain c.rest).2⟩ ::
        pivots) where
  staircase :=
    .cons ((length_reflectorOf _ c.rest).trans hc) (isReflector_reflectorOf c.rest) h.staircase
  sources := by
    have hsources : (others.map f).map (·.source) = others.map (·.source) := by
      rw [List.map_map]
      exact List.map_congr_left fun o ho => (hf o ho).1
    exact ((hsources ▸ h.sources).cons c.source).trans (hperm.map Column.source)
  column i hi := by
    cases i with
    | zero =>
        refine ⟨c, hperm.mem_iff.mp (by simp), rfl, [], rfl, by simp, ?_⟩
        obtain ⟨lead, rest, hrest⟩ := List.exists_cons_of_length_eq_add_one hc
        have hm : rest.length = m := by simpa [hrest] using hc
        have hreflect := reflect_reflectorOf lead rest
        rw [← hrest, hm] at hreflect
        rw [applyTransposed_cons hreflect, applyTransposed_zeros h.staircase]
        simp
    | succ i =>
        have hi : i < pivots.length := by simpa using hi
        obtain ⟨c', hc', hsource, finished, hlength, habove, htransposed⟩ := h.column i hi
        obtain ⟨o, ho, rfl⟩ := List.mem_map.mp hc'
        obtain ⟨hfo, lead, hreflect, hlead⟩ := hf o ho
        refine ⟨o, hperm.mem_iff.mp (List.mem_cons_of_mem c ho), ?_, lead :: finished, ?_, ?_, ?_⟩
        · simpa [hfo] using hsource
        · simp [hlength]
        · simp [habove, hlead]
        · rw [applyTransposed_cons hreflect, htransposed]
          simp

theorem reduces_reduce (pivoting : Bool) (hlength : columns.length = n)
    (hrest : ∀ c ∈ columns, c.rest.length = m) (hnm : n ≤ m) :
    Reduces m columns (reduce .plain pivoting n columns) := by
  induction n generalizing m columns with
  | zero =>
      obtain rfl := List.length_eq_zero_iff.mp hlength
      exact ⟨.nil m, by simp [reduce], by simp [reduce]⟩
  | succ n ih =>
      obtain ⟨m, rfl⟩ := Nat.exists_eq_add_of_le' (Nat.le_of_add_left_le hnm)
      obtain ⟨c, others, f, hperm, -, hf, hreduce⟩ := reduce_succ pivoting hlength hrest
      have hmem (o : Column ℝ) (ho : o ∈ c :: others) : o.rest.length = m + 1 :=
        hrest o (hperm.mem_iff.mp ho)
      have hothers : others.length = n := by simpa [hlength] using hperm.length_eq
      have hadvanced : ∀ o ∈ others.map f, o.rest.length = m := by
        intro o' ho'
        obtain ⟨o, ho, rfl⟩ := List.mem_map.mp ho'
        obtain ⟨-, lead, hreflect, -⟩ := hf o ho
        have ho := hmem o (List.mem_cons_of_mem c ho)
        have hw := (length_reflectorOf .plain c.rest).trans (hmem c (by simp))
        have := length_reflect (hw.trans ho.symm)
        simpa [hreflect, ho] using this
      rw [hreduce]
      exact (ih (by simp [hothers]) hadvanced (by omega)).cons hperm (hmem c (by simp)) hf

@[simp] theorem Column.source_skip (c : Column ℝ) : c.skip.source = c.source := by
  unfold skip
  split <;> rfl

@[simp] theorem Column.source_advance (norm : Norm) (w : Vec ℝ) (c : Column ℝ) :
    (c.advance norm w).source = c.source := by
  unfold advance
  split <;> rfl

theorem sources_reduce_of_not_pivoting (columns : List (Column ℝ)) :
    (reduce .plain false columns.length columns).map (·.source) = columns.map (·.source) := by
  generalize hn : columns.length = n
  induction n generalizing columns with
  | zero =>
      obtain rfl := List.length_eq_zero_iff.mp hn
      simp [reduce]
  | succ n ih =>
      obtain ⟨c, others, rfl⟩ := List.exists_cons_of_length_eq_add_one hn
      have hothers : others.length = n := by simpa using hn
      simp only [reduce, Bool.false_eq_true, if_false, swapFront_zero, List.map_cons]
      split_ifs
      · rw [ih _ (by simp [hothers])]
        simp [Function.comp_def]
      · rw [ih _ (by simp [hothers])]
        simp [Function.comp_def]

end Minima.Factorization
