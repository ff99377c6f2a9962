import Mathlib.Data.List.GetD
import Minima.Proofs.Exact.Matrix
import Minima.Proofs.Factorization.Reduction

/-!
# Pivoting reveals the rank

Without rounding the lengths that are updated from step to step are the lengths of the open parts
of the columns.  The longest is chosen, so that a diagonal entry dominates what is left of every
later column.  A zero on the diagonal is found only if nothing is left of any: from there on the
rows of the triangle vanish.
-/

namespace Minima

/-! ## The longest column -/

private theorem argmax_go_spec (largest : ℝ) (position next : Nat) (l : Vec ℝ) :
    (Vec.argmax.go largest position next l = position ∧ ∀ a ∈ l, a ≤ largest) ∨
      ∃ i, ∃ h : i < l.length, Vec.argmax.go largest position next l = next + i ∧
        largest ≤ l[i] ∧ ∀ a ∈ l, a ≤ l[i] := by
  induction l generalizing largest position next with
  | nil => exact .inl ⟨rfl, nofun⟩
  | cons a l ih =>
      rw [Vec.argmax.go]
      split
      · rename_i hlt
        rcases ih a next (next + 1) with ⟨heq, hall⟩ | ⟨i, hi, heq, hfirst, hall⟩
        · exact .inr ⟨0, Nat.succ_pos _, heq, hlt.le, List.forall_mem_cons.mpr ⟨le_rfl, hall⟩⟩
        · refine .inr ⟨i + 1, Nat.succ_lt_succ hi, by omega, hlt.le.trans hfirst, ?_⟩
          exact List.forall_mem_cons.mpr ⟨hfirst, hall⟩
      · rename_i hnot
        have hle := not_lt.mp hnot
        rcases ih largest position (next + 1) with ⟨heq, hall⟩ | ⟨i, hi, heq, hfirst, hall⟩
        · exact .inl ⟨heq, List.forall_mem_cons.mpr ⟨hle, hall⟩⟩
        · refine .inr ⟨i + 1, Nat.succ_lt_succ hi, by omega, hfirst, ?_⟩
          exact List.forall_mem_cons.mpr ⟨hle.trans hfirst, hall⟩

theorem Vec.argmax_spec {l : Vec ℝ} (h : l ≠ []) :
    ∃ hi : Vec.argmax l < l.length, ∀ a ∈ l, a ≤ l[Vec.argmax l] := by
  obtain ⟨first, l, rfl⟩ := List.exists_cons_of_ne_nil h
  rcases argmax_go_spec first 0 1 l with ⟨heq, hall⟩ | ⟨i, hi, heq, hfirst, hall⟩
  · have hargmax : Vec.argmax (first :: l) = 0 := heq
    simp only [hargmax]
    exact ⟨Nat.succ_pos _, List.forall_mem_cons.mpr ⟨le_rfl, hall⟩⟩
  · have hargmax : Vec.argmax (first :: l) = i + 1 := heq.trans (Nat.add_comm 1 i)
    simp only [hargmax]
    exact ⟨Nat.succ_lt_succ hi, List.forall_mem_cons.mpr ⟨hfirst, hall⟩⟩

namespace Factorization

variable {m n k : Nat} {columns : List (Column ℝ)} {w : Vec ℝ} {c : Column ℝ}

theorem swapFront_eq_cons {β : Type} {l : List β} {k : Nat} (h : k < l.length) :
    ∃ others, swapFront k l = l[k] :: others := by
  cases l with
  | nil => cases h
  | cons first rest =>
      cases k with
      | zero => exact ⟨rest, swapFront_zero _⟩
      | succ k =>
          have hk : k < rest.length := Nat.lt_of_succ_lt_succ h
          rw [swapFront, List.getElem?_eq_getElem hk]
          exact ⟨rest.set k first, rfl⟩

/-! ## Lengths -/

/-- The length that is kept of a column is the one of its open part. -/
def Column.Measured (c : Column ℝ) : Prop := c.length = Vec.norm c.rest

theorem norm_cons_mul_self (lead : ℝ) (rest : Vec ℝ) :
    Vec.norm (lead :: rest) * Vec.norm (lead :: rest) =
      lead * lead + Vec.norm rest * Vec.norm rest := by
  rw [Vec.norm_mul_self, Vec.norm_mul_self, Vec.dot_cons_cons]

theorem shortened_eq_norm (reference lead : ℝ) (rest : Vec ℝ) :
    (shortened .plain (Vec.norm (lead :: rest)) reference lead rest).1 = Vec.norm rest := by
  have hsplit := norm_cons_mul_self lead rest
  have hrest : 0 ≤ Vec.norm rest := Real.sqrt_nonneg _
  have hlength : 0 ≤ Vec.norm (lead :: rest) := Real.sqrt_nonneg _
  generalize hl : Vec.norm (lead :: rest) = length at hsplit hlength
  unfold shortened
  by_cases hzero : length = 0
  · have : Vec.norm rest = 0 := by
      rw [hzero] at hsplit
      nlinarith [mul_self_nonneg lead]
    simp [hzero, this]
  · have hleft : length * √(max (1 - Scalar.square (lead / length)) 0) = Vec.norm rest := by
      have hsquare : 1 - Scalar.square (lead / length) = (Vec.norm rest / length) ^ 2 := by
        unfold Scalar.square
        field_simp
        linarith
      rw [hsquare, max_eq_left (sq_nonneg _), Real.sqrt_sq (div_nonneg hrest hlength),
        mul_div_cancel₀ _ hzero]
    simp only [Scalar.isZero_real, hzero, decide_false, Bool.false_eq_true, if_false,
      Scalar.sqrt_real, Scalar.max_real, hleft]
    split_ifs <;> rfl

theorem norm_reflect (hw : IsReflector w) {v : Vec ℝ} (hv : w.length = v.length) :
    Vec.norm (reflect w v) = Vec.norm v := by
  rw [Vec.norm, Vec.norm, dot_reflect_reflect hw hv hv]

theorem Column.Measured.advance (hw : IsReflector w) (hc : w.length = c.rest.length)
    (h : c.Measured) : (c.advance .plain w).Measured := by
  unfold Column.advance
  have hnorm := norm_reflect hw hc
  split
  · exact h
  · rename_i lead rest hreflect
    rw [Measured] at h ⊢
    rw [hreflect, ← h] at hnorm
    rw [← hnorm]
    exact shortened_eq_norm c.reference lead rest

theorem norm_cons_eq_zero {lead : ℝ} {rest : Vec ℝ} (h : Vec.norm (lead :: rest) = 0) :
    lead = 0 ∧ Vec.norm rest = 0 := by
  have hsplit := norm_cons_mul_self lead rest
  rw [h, mul_zero] at hsplit
  have hlead := mul_self_nonneg lead
  have hrest := mul_self_nonneg (Vec.norm rest)
  exact ⟨mul_self_eq_zero.mp (by linarith), mul_self_eq_zero.mp (by linarith)⟩

theorem Column.Measured.skip (hzero : Vec.norm c.rest = 0) (h : c.Measured) : c.skip.Measured := by
  unfold Column.skip
  split
  · exact h
  · rename_i lead rest hrest
    rw [Measured, hzero] at h
    rw [hrest] at hzero
    rw [Measured, (norm_cons_eq_zero hzero).2]
    exact h

theorem diagonal_reflectorOf_mul_self {x : Vec ℝ} (hx : x ≠ []) :
    (reflectorOf .plain x).1 * (reflectorOf .plain x).1 = Vec.dot x x := by
  obtain ⟨lead, rest, rfl⟩ := List.exists_cons_of_ne_nil hx
  have hlength := length_reflectorOf .plain (lead :: rest)
  rw [← dot_reflect_reflect (isReflector_reflectorOf (lead :: rest)) hlength hlength,
    reflect_reflectorOf, Vec.dot_cons_cons, Vec.dot_zeros_left, add_zero]

/-- A step with pivoting: the column that is chosen is the longest, and the lengths of the others
stay exact. -/
theorem reduce_pivoting_succ (hlength : columns.length = n + 1)
    (hrest : ∀ c ∈ columns, c.rest.length = m + 1) (hmeasured : ∀ c ∈ columns, c.Measured) :
    ∃ (c : Column ℝ) (others : List (Column ℝ)) (f : Column ℝ → Column ℝ),
      (c :: others).Perm columns ∧
      (∀ o ∈ others, Vec.norm o.rest ≤ Vec.norm c.rest) ∧
      (∀ o ∈ others, o.Advances (reflectorOf .plain c.rest).2 (f o) ∧ (f o).Measured) ∧
      reduce .plain true (n + 1) columns =
        ⟨c.source, c.above, (reflectorOf .plain c.rest).1, (reflectorOf .plain c.rest).2⟩ ::
          reduce .plain true n (others.map f) := by
  have hne : columns.map (·.length) ≠ [] := by
    simp [← List.length_pos_iff, hlength]
  obtain ⟨hchosen, hlongest⟩ := Vec.argmax_spec hne
  generalize hk : Vec.argmax (columns.map (·.length)) = chosen at hchosen hlongest
  have hchosen' : chosen < columns.length := by simpa using hchosen
  obtain ⟨others, hswap⟩ := swapFront_eq_cons hchosen'
  have hperm := swapFront_perm chosen columns
  rw [hswap] at hperm
  have hmem (o : Column ℝ) (ho : o ∈ columns[chosen] :: others) : o ∈ columns := hperm.mem_iff.mp ho
  generalize hc : columns[chosen] = c at hswap hperm hmem
  have hle : ∀ o ∈ others, Vec.norm o.rest ≤ Vec.norm c.rest := by
    intro o ho
    have ho := hmem o (List.mem_cons_of_mem c ho)
    have hbound := hlongest o.length (List.mem_map_of_mem ho)
    rw [List.getElem_map, hc, hmeasured o ho, hmeasured c (hmem c List.mem_cons_self)] at hbound
    exact hbound
  have hw : (reflectorOf .plain c.rest).2.length = m + 1 :=
    (length_reflectorOf _ c.rest).trans (hrest c (hmem c List.mem_cons_self))
  refine ⟨c, others,
    if Vec.norm c.rest = 0 then Column.skip
    else Column.advance .plain (reflectorOf .plain c.rest).2, hperm, hle, ?_, ?_⟩
  · intro o ho
    have hlo := hrest o (hmem o (List.mem_cons_of_mem c ho))
    have hmo := hmeasured o (hmem o (List.mem_cons_of_mem c ho))
    split_ifs with hzero
    · have hnothing : Vec.norm o.rest = 0 :=
        le_antisymm ((hle o ho).trans hzero.le) (Real.sqrt_nonneg _)
      exact ⟨Column.advances_skip (reflect_reflectorOf_of_norm_eq_zero hzero) hlo,
        hmo.skip hnothing⟩
    · exact ⟨Column.advances_advance hw hlo,
        hmo.advance (isReflector_reflectorOf _) (hw.trans hlo.symm)⟩
  · simp only [reduce, if_true, hk, hswap, Norm.length, Scalar.isZero_real, decide_eq_true_eq]
    split_ifs <;> rfl

/-! ## Open columns -/

/-- `n` columns with `k` finished and `m` open entries each, whose lengths are known. -/
structure Open (n m k : Nat) (columns : List (Column ℝ)) : Prop where
  length_eq : columns.length = n
  rest_length : ∀ c ∈ columns, c.rest.length = m
  above_length : ∀ c ∈ columns, c.above.length = k
  measured : ∀ c ∈ columns, c.Measured

theorem Column.Advances.length_rest {c' : Column ℝ} (h : c.Advances w c')
    (hw : w.length = m + 1) (hc : c.rest.length = m + 1) : c'.rest.length = m := by
  obtain ⟨-, lead, hreflect, -⟩ := h
  have hlength := length_reflect (hw.trans hc.symm)
  rw [hreflect, List.length_cons, hc] at hlength
  exact Nat.succ.inj hlength

theorem Column.Advances.length_above {c' : Column ℝ} (h : c.Advances w c') :
    c'.above.length = c.above.length + 1 := by
  obtain ⟨-, lead, -, habove⟩ := h
  rw [habove, List.length_append, List.length_singleton]

theorem Open.reduce_succ (h : Open (n + 1) (m + 1) k columns) :
    ∃ (c : Column ℝ) (next : List (Column ℝ)), c ∈ columns ∧
      (∀ o ∈ columns, Vec.norm o.rest ≤ Vec.norm c.rest) ∧ Open n m (k + 1) next ∧
      reduce .plain true (n + 1) columns =
        ⟨c.source, c.above, (reflectorOf .plain c.rest).1, (reflectorOf .plain c.rest).2⟩ ::
          reduce .plain true n next := by
  obtain ⟨c, others, f, hperm, hlongest, hf, hreduce⟩ :=
    reduce_pivoting_succ h.length_eq h.rest_length h.measured
  have hmem (o : Column ℝ) (ho : o ∈ others) : o ∈ columns :=
    hperm.mem_iff.mp (List.mem_cons_of_mem c ho)
  have hc : c ∈ columns := hperm.mem_iff.mp List.mem_cons_self
  have hw := (length_reflectorOf .plain c.rest).trans (h.rest_length c hc)
  refine ⟨c, others.map f, hc, ?_, ⟨?_, ?_, ?_, ?_⟩, hreduce⟩
  · intro o ho
    rcases List.mem_cons.mp (hperm.mem_iff.mpr ho) with rfl | ho
    · exact le_rfl
    · exact hlongest o ho
  · simpa [h.length_eq] using hperm.length_eq
  · refine List.forall_mem_map.mpr fun o ho => ?_
    exact (hf o ho).1.length_rest hw (h.rest_length o (hmem o ho))
  · refine List.forall_mem_map.mpr fun o ho => ?_
    rw [(hf o ho).1.length_above, h.above_length o (hmem o ho)]
  · exact List.forall_mem_map.mpr fun o ho => (hf o ho).2

theorem open_columns (A : Matrix (Fin m) (Fin n) ℝ) :
    Open n m 0 ((DenseMatrix.ofMatrix A).columns.zipIdx.map fun (column, j) =>
      (⟨j, [], column, Norm.length .plain column, Norm.length .plain column⟩ : Column ℝ)) := by
  refine ⟨by simp [DenseMatrix.ofMatrix], ?_, ?_, ?_⟩
  · rintro _ hc
    obtain ⟨⟨column, j⟩, hmem, rfl⟩ := List.mem_map.mp hc
    obtain ⟨k, rfl⟩ := List.mem_ofFn.mp (List.fst_mem_of_mem_zipIdx hmem)
    exact List.length_ofFn
  · exact List.forall_mem_map.mpr fun _ _ => rfl
  · exact List.forall_mem_map.mpr fun _ _ => rfl

/-! ## A dominating diagonal -/

/-- The entries of a pivot from the row of an earlier one on are together not longer than the
diagonal entry there.  The entries above the diagonal begin with `k` ones of earlier rows. -/
def Dominates (k : Nat) (pivots : List (Pivot ℝ)) : Prop :=
  ∀ i j, (hij : i ≤ j) → (hj : j < pivots.length) →
    Vec.dot (pivots[j].above.drop (k + i)) (pivots[j].above.drop (k + i)) +
        pivots[j].diagonal * pivots[j].diagonal ≤
      pivots[i].diagonal * pivots[i].diagonal

theorem dot_applyTransposed {pivots : List (Pivot ℝ)} (h : Staircase m pivots) {v : Vec ℝ}
    (hv : v.length = m) :
    Vec.dot (applyTransposed pivots v) (applyTransposed pivots v) = Vec.dot v v := by
  have hlength := length_applyTransposed h hv
  rw [← dot_applyReflections h hlength hlength, applyReflections_applyTransposed h hv]

theorem Reduces.exists_column {pivots : List (Pivot ℝ)} (h : Reduces m columns pivots)
    (hopen : Open n m k columns) {j : Nat} (hj : j < pivots.length) :
    ∃ c ∈ columns, Vec.dot (pivots[j].above.drop k) (pivots[j].above.drop k) +
      pivots[j].diagonal * pivots[j].diagonal = Vec.dot c.rest c.rest := by
  obtain ⟨c, hc, -, finished, -, hpivot, htransposed⟩ := h.column j hj
  refine ⟨c, hc, ?_⟩
  rw [hpivot, List.drop_left' (hopen.above_length c hc),
    ← dot_applyTransposed h.staircase (hopen.rest_length c hc), htransposed, Vec.dot_append rfl,
    Vec.dot_cons_cons, Vec.dot_zeros_left, add_zero]

theorem dominates_reduce (h : Open n m k columns) (hnm : n ≤ m) :
    Dominates k (reduce .plain true n columns) := by
  induction n generalizing m k columns with
  | zero =>
      intro i j hij hj
      cases hj
  | succ n ih =>
      have hreduces := reduces_reduce true h.length_eq h.rest_length hnm
      obtain ⟨m, rfl⟩ := Nat.exists_eq_add_of_le' (Nat.le_of_add_left_le hnm)
      obtain ⟨c, next, hc, hlongest, hnext, hreduce⟩ := h.reduce_succ
      intro i j hij hj
      cases i with
      | zero =>
          -- the reflections keep the length of a column, and none is longer than the one chosen
          obtain ⟨o, ho, hpivot⟩ := hreduces.exists_column h hj
          have hfirst : (reduce .plain true (n + 1) columns)[0].diagonal =
              (reflectorOf .plain c.rest).1 := by
            simp only [hreduce, List.getElem_cons_zero]
          have hne : c.rest ≠ [] := List.ne_nil_of_length_eq_add_one (h.rest_length c hc)
          rw [Nat.add_zero, hpivot, hfirst, diagonal_reflectorOf_mul_self hne, ← Vec.norm_mul_self,
            ← Vec.norm_mul_self]
          exact mul_self_le_mul_self (Real.sqrt_nonneg _) (hlongest o ho)
      | succ i =>
          obtain ⟨j, rfl⟩ := Nat.exists_eq_add_of_le' (Nat.le_of_add_left_le hij)
          simp only [hreduce, List.length_cons] at hj
          have hdominates := ih hnext (Nat.le_of_succ_le_succ hnm) i j
            (Nat.le_of_succ_le_succ hij) (Nat.lt_of_succ_lt_succ hj)
          rw [Nat.add_right_comm, Nat.add_assoc] at hdominates
          simpa only [hreduce, List.getElem_cons_succ] using hdominates

theorem dominates_factor (A : Matrix (Fin m) (Fin n) ℝ) (hnm : n ≤ m) :
    Dominates 0 (factor .plain true (.ofMatrix A)).pivots := by
  have hopen := open_columns A
  simp only [factor]
  rw [hopen.length_eq]
  exact dominates_reduce hopen hnm

/-! ## Rows of zeros -/

/-- From the first zero on the diagonal on, the rows of the triangle vanish.  The entries of the
pivots above the diagonal begin with `k` ones of earlier rows. -/
def Vanishes (k : Nat) (pivots : List (Pivot ℝ)) : Prop :=
  ∀ i j, (hij : i ≤ j) → (hj : j < pivots.length) → pivots[i].diagonal = 0 →
    pivots[j].diagonal = 0 ∧ (i < j → pivots[j].above.getD (k + i) 0 = 0)

theorem Dominates.vanishes {pivots : List (Pivot ℝ)} (h : Dominates k pivots) :
    Vanishes k pivots := by
  intro i j hij hj hzero
  have hle := h i j hij hj
  have habove := Vec.dot_self_nonneg (pivots[j].above.drop (k + i))
  have hdiagonal := mul_self_nonneg pivots[j].diagonal
  rw [hzero, mul_zero] at hle
  refine ⟨mul_self_eq_zero.mp (by linarith), fun _ => ?_⟩
  have hzeros := Vec.dot_self_eq_zero_iff.mp (le_antisymm (by linarith) habove)
  have hentry : pivots[j].above.getD (k + i) 0 = (pivots[j].above.drop (k + i))[0]?.getD 0 := by
    simp [List.getD_eq_getElem?_getD]
  rw [hentry, hzeros, Vec.zeros, List.getElem?_getD_replicate_default_eq]

end Factorization

end Minima
