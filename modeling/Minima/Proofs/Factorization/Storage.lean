import Minima.Proofs.Factorization.Reduction
import Minima.Proofs.Factorization.Reuse

/-!
# The storage of a factored matrix

In every arithmetic the factorization of a matrix has the shape of its columns, whatever the
lengths and the choices of pivots are.  So the system of a factored matrix fits in a storage, and
all calls on it can be answered from there.
-/

namespace Minima

variable {α : Type} {n : Nat}

namespace Factorization

/-! ## The shape of a reduction -/

structure Column.Steps (c c' : Column α) : Prop where
  source : c'.source = c.source
  above : c'.above.length = c.above.length + 1
  rest : c'.rest.length + 1 = c.rest.length

theorem Column.steps_skip {c : Column α} (h : 0 < c.rest.length) : c.Steps c.skip := by
  fun_cases skip c with
  | case1 hrest => simp [hrest] at h
  | case2 lead rest hrest => exact ⟨rfl, by simp, by simp [hrest]⟩

structure Shape (k m : Nat) (columns : List (Column α)) (pivots : List (Pivot α)) : Prop where
  sources : (pivots.map (·.source)).Perm (columns.map (·.source))
  above : ∀ i (h : i < pivots.length), pivots[i].above.length = k + i
  reflector : ∀ i (h : i < pivots.length), pivots[i].reflector.length = m - i

variable {k m : Nat} {columns : List (Column α)} {pivots : List (Pivot α)}

theorem Shape.cons {c : Column α} {others : List (Column α)} {f : Column α → Column α}
    {diagonal : α} {w : Vec α} (hperm : (c :: others).Perm columns)
    (hf : ∀ o ∈ others, o.Steps (f o)) (habove : c.above.length = k) (hw : w.length = m + 1)
    (h : Shape (k + 1) m (others.map f) pivots) :
    Shape k (m + 1) columns (⟨c.source, c.above, diagonal, w⟩ :: pivots) where
  sources := by
    have hsources : (others.map f).map (·.source) = others.map (·.source) := by
      rw [List.map_map]
      exact List.map_congr_left fun o ho => (hf o ho).source
    exact ((hsources ▸ h.sources).cons c.source).trans (hperm.map Column.source)
  above i hi := by
    cases i with
    | zero => simpa using habove
    | succ i =>
        rw [List.getElem_cons_succ, h.above i (by simpa using hi)]
        omega
  reflector i hi := by
    cases i with
    | zero => simpa using hw
    | succ i =>
        rw [List.getElem_cons_succ, h.reflector i (by simpa using hi)]
        omega

variable [Scalar α]

theorem Column.steps_advance (norm : Norm) {w : Vec α} {c : Column α}
    (hw : w.length = c.rest.length) (h : 0 < c.rest.length) : c.Steps (c.advance norm w) := by
  have hlength := length_reflect hw
  fun_cases advance norm w c with
  | case1 hreflect =>
      rw [hreflect] at hlength
      simp [← hlength] at h
  | case2 lead rest hreflect _ _ _ =>
      rw [hreflect] at hlength
      exact ⟨rfl, by simp, hlength⟩

theorem shape_reduce (norm : Norm) (pivoting : Bool) (hlength : columns.length = n)
    (hcolumns : ∀ c ∈ columns, c.above.length = k ∧ c.rest.length = m) (hnm : n ≤ m) :
    Shape k m columns (reduce norm pivoting n columns) := by
  induction n generalizing k m columns with
  | zero =>
      obtain rfl := List.length_eq_zero_iff.mp hlength
      exact ⟨by simp [reduce], by simp [reduce], by simp [reduce]⟩
  | succ n ih =>
      obtain ⟨m, rfl⟩ := Nat.exists_eq_add_of_le' (Nat.le_of_add_left_le hnm)
      rw [reduce]
      generalize (if pivoting then Vec.argmax (columns.map (·.length)) else 0) = chosen
      have hperm := swapFront_perm chosen columns
      obtain ⟨c, others, hswap⟩ :=
        List.exists_cons_of_length_eq_add_one (hperm.length_eq.trans hlength)
      rw [hswap] at hperm ⊢
      have hmem (o : Column α) (ho : o ∈ c :: others) := hcolumns o (hperm.mem_iff.mp ho)
      obtain ⟨habove, hrest⟩ := hmem c List.mem_cons_self
      have hw : (reflectorOf norm c.rest).2.length = m + 1 :=
        (length_reflectorOf _ c.rest).trans hrest
      have hothers : others.length = n := by simpa [hlength] using hperm.length_eq
      -- the open columns take the step in either way
      obtain ⟨f, hf, hstep⟩ : ∃ f : Column α → Column α, (∀ o ∈ others, o.Steps (f o)) ∧
          (if Scalar.isZero (norm.length c.rest) then others.map Column.skip
            else others.map (Column.advance norm (reflectorOf norm c.rest).2)) = others.map f := by
        have hopen (o : Column α) (ho : o ∈ others) : o.rest.length = m + 1 :=
          (hmem o (List.mem_cons_of_mem c ho)).2
        by_cases hzero : Scalar.isZero (norm.length c.rest)
        · exact ⟨_, fun o ho => Column.steps_skip (by rw [hopen o ho]; omega), if_pos hzero⟩
        · exact ⟨_, fun o ho => Column.steps_advance norm (hw.trans (hopen o ho).symm)
            (by rw [hopen o ho]; omega), if_neg hzero⟩
      have hnext : ∀ o ∈ others.map f, o.above.length = k + 1 ∧ o.rest.length = m := by
        intro o' ho'
        obtain ⟨o, ho, rfl⟩ := List.mem_map.mp ho'
        obtain ⟨hoabove, horest⟩ := hmem o (List.mem_cons_of_mem c ho)
        have hstep := hf o ho
        have habove := hstep.above
        have hrest := hstep.rest
        omega
      have hreduce := ih (by simp [hothers]) hnext (Nat.le_of_succ_le_succ hnm)
      simp only [hstep]
      exact hreduce.cons hperm hf habove hw

theorem length_applyTransposed_of_reflectors {v : Vec α} (hv : v.length = m)
    (hm : pivots.length ≤ m)
    (h : ∀ i (hi : i < pivots.length), pivots[i].reflector.length = m - i) :
    (applyTransposed pivots v).length = m := by
  induction pivots generalizing m v with
  | nil => exact hv
  | cons p pivots ih =>
      obtain ⟨m, rfl⟩ := Nat.exists_eq_add_of_le' (Nat.le_of_add_left_le hm)
      have hreflector : p.reflector.length = m + 1 := h 0 (by simp)
      have hlength := length_reflect (hreflector.trans hv.symm)
      obtain ⟨a, u, hau⟩ := List.exists_cons_of_length_eq_add_one (hlength.trans hv)
      have hu : u.length = m := by
        rw [hau, hv] at hlength
        simpa using hlength
      have hrest := ih hu (by simpa using hm) fun i hi => by
        have hreflector := h (i + 1) (by simpa using hi)
        rw [List.getElem_cons_succ] at hreflector
        omega
      simp [applyTransposed, hau, hrest]

end Factorization

/-! ## Systems in a storage -/

namespace DampedSystem

structure Fits (n : Nat) (s : DampedSystem α) : Prop where
  permutation : s.permutation.Perm (List.range n)
  columnNorms : s.columnNorms.length = n
  rhs : s.rhs.length = n
  upper : s.upper.length = n
  above : ∀ k (h : k < s.upper.length), s.upper[k].above.length = k

theorem Fits.length_permutation {s : DampedSystem α} (h : s.Fits n) : s.permutation.length = n := by
  simpa using h.permutation.length_eq

theorem Fits.permutation_lt {s : DampedSystem α} (h : s.Fits n)
    (j : Fin s.permutation.length) : s.permutation.get j < n :=
  List.mem_range.mp (h.permutation.mem_iff.mp (List.get_mem _ _))

variable [Scalar α]

theorem fits_ofFactorization (norm : Norm) (pivoting : Bool) {a : DenseMatrix α} {b : Vec α}
    (hcolumns : ∀ c ∈ a.columns, c.length = a.rows) (hrows : a.width ≤ a.rows)
    (hb : b.length = a.rows) :
    (ofFactorization (Factorization.factor norm pivoting a) b).Fits a.width := by
  generalize hstart : (a.columns.zipIdx.map fun p : Vec α × Nat =>
    (⟨p.2, [], p.1, norm.length p.1, norm.length p.1⟩ : Factorization.Column α)) = start
  have hlength : start.length = a.width := by simp [← hstart, DenseMatrix.width]
  have hshape : Factorization.Shape 0 a.rows start
      (Factorization.reduce norm pivoting start.length start) := by
    refine Factorization.shape_reduce norm pivoting rfl (fun c hc => ?_) (hlength ▸ hrows)
    obtain ⟨⟨column, j⟩, hmem, rfl⟩ := List.mem_map.mp (hstart ▸ hc)
    exact ⟨rfl, hcolumns column (List.fst_mem_of_mem_zipIdx hmem)⟩
  have hsources : start.map (·.source) = List.range a.width := by
    apply List.ext_getElem
    · simp [hlength]
    · intro i _ _
      simp [← hstart]
  have hpivots : (Factorization.factor norm pivoting a).pivots =
      Factorization.reduce norm pivoting start.length start := by
    rw [← hstart]
    rfl
  have hcount : (Factorization.reduce norm pivoting start.length start).length = a.width := by
    simpa [hlength] using hshape.sources.length_eq
  constructor
  · rw [ofFactorization, Factorization.permutation, hpivots, ← hsources]
    exact hshape.sources
  · simp [ofFactorization, Factorization.factor, DenseMatrix.width]
  · have hrhs := Factorization.length_applyTransposed_of_reflectors hb (hcount.trans_le hrows)
      hshape.reflector
    rw [ofFactorization, hpivots, List.length_take, hrhs, hcount, Nat.min_eq_left hrows]
  · rw [ofFactorization, List.length_map, hpivots, hcount]
  · intro k hk
    simp only [ofFactorization, hpivots, List.getElem_map] at hk ⊢
    rw [hshape.above k (by simpa using hk), Nat.zero_add]

namespace Fits

variable {s : DampedSystem α}

def storage (h : s.Fits n) : Workspace α n where
  permutation := Vector.ofFn fun j => ⟨_, h.permutation_lt (j.cast h.length_permutation.symm)⟩
  complete i := by
    have hmem : (i : Nat) ∈ s.permutation := h.permutation.mem_iff.mpr (List.mem_range.mpr i.isLt)
    obtain ⟨j, hji⟩ := List.mem_iff_get.mp hmem
    exact Vector.mem_ofFn.mpr ⟨j.cast h.length_permutation, Fin.ext hji⟩
  columnNorms := ⟨s.columnNorms.toArray, by simpa using h.columnNorms⟩
  rhs := ⟨s.rhs.toArray, by simpa using h.rhs⟩
  columns := Vector.ofFn fun k => Vector.ofFn fun i =>
    let head := s.upper.get (k.cast h.upper.symm)
    if i < k then head.above.getD i 0 else head.diagonal
  diagonal := Vector.replicate n 0
  scratch := Vector.replicate n 0

theorem permutation_storage (h : s.Fits n) : h.storage.system.permutation = s.permutation := by
  apply List.ext_getElem
  · simp [Workspace.system, h.length_permutation]
  · intro i _ _
    simp [Workspace.system, storage]

theorem upper_storage (h : s.Fits n) : h.storage.upper = s.upper := by
  apply List.ext_getElem
  · simp [Workspace.upper, h.upper]
  · intro k hk hks
    have hkn : k < n := h.upper ▸ hks
    have habove : h.storage.columns[k].toList.take k = s.upper[k].above := by
      apply List.ext_getElem
      · simp [h.above k hks, Nat.le_of_lt hkn]
      · intro i hi _
        have hik : i < k := by simp at hi; omega
        simp [storage, hik, h.above k hks]
    simp only [Workspace.upper, List.getElem_ofFn, Fin.getElem_fin, habove]
    simp [storage]

theorem system_storage (h : s.Fits n) : h.storage.system = { s with lower := h.storage.lower } := by
  rw [← h.permutation_storage, ← h.upper_storage]
  rfl

end Fits

end DampedSystem

variable [Scalar α]

/-- All calls on the system of a factored matrix can be answered from one storage. -/
theorem exists_workspace_answers (norm : Norm) (pivoting : Bool) {a : DenseMatrix α} {b : Vec α}
    (hcolumns : ∀ c ∈ a.columns, c.length = a.rows) (hrows : a.width ≤ a.rows)
    (hb : b.length = a.rows) :
    ∃ w : Workspace α a.width, ∀ calls, (w.run norm calls).1 = calls.map
      ((DampedSystem.ofFactorization (Factorization.factor norm pivoting a) b).answer norm) := by
  have hfits := DampedSystem.fits_ofFactorization norm pivoting hcolumns hrows hb
  refine ⟨hfits.storage, fun calls => ?_⟩
  rw [(hfits.storage.run_eq norm calls).1, hfits.system_storage]
  exact List.map_congr_left fun c _ => DampedSystem.answer_lower norm _ _ c

end Minima
