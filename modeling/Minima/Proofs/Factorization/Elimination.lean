import Minima.Factorization.Workspace

/-!
# Rotations in place

The rotations of a `Workspace` are those of a `DampedSystem`: what the storage holds from a place
on are the lines, the row and the right hand sides that are still open.  The rest of the storage
is not touched, and each diagonal entry of the matrix is back when its place is finished.
-/

namespace Minima

variable {α : Type} {n : Nat}

/-! ## Parts of vectors -/

theorem drop_ofFn_eq_cons {β : Type} (f : Fin n → β) {j : Nat} (h : j < n) :
    (List.ofFn f).drop j = f ⟨j, h⟩ :: (List.ofFn f).drop (j + 1) := by
  rw [List.drop_eq_getElem_cons (by simpa using h), List.getElem_ofFn]

theorem drop_ofFn_congr {β : Type} {f g : Fin n → β} {j : Nat}
    (h : ∀ (i : Nat) (hi : i < n), j ≤ i → f ⟨i, hi⟩ = g ⟨i, hi⟩) :
    (List.ofFn f).drop j = (List.ofFn g).drop j := by
  apply List.ext_getElem
  · simp
  · intro i _ _
    simp only [List.getElem_drop, List.getElem_ofFn]
    exact h _ _ (Nat.le_add_right j i)

theorem drop_toList_eq_cons (v : Vector α n) {j : Nat} (h : j < n) :
    v.toList.drop j = v[j] :: v.toList.drop (j + 1) := by
  rw [List.drop_eq_getElem_cons (by simpa using h), Vector.getElem_toList]

@[simp] theorem getElem_writeFrom (k : Nat) (f : Fin n → α) (v : Vector α n) (i : Nat)
    (hi : i < n) : (writeFrom k f v)[i] = if i < k then v[i] else f ⟨i, hi⟩ := by
  simp [writeFrom]

theorem drop_writeFrom {j k : Nat} (h : k ≤ j) (f : Fin n → α) (v : Vector α n) :
    (writeFrom k f v).toList.drop j = (List.ofFn f).drop j := by
  apply List.ext_getElem
  · simp
  · intro i _ _
    simp [show ¬j + i < k by omega]

/-! ## What is kept -/

namespace Elimination

def lines (s : Elimination α n) : List (Line α × α) :=
  List.ofFn fun (⟨k, _⟩ : Fin n) => (⟨s.columns[k][k], s.columns[k].toList.drop (k + 1)⟩, s.rhs[k])

def finished (s : Elimination α n) : List (Line α × α) :=
  List.ofFn fun (⟨k, hk⟩ : Fin n) => (s.line ⟨k, hk⟩, s.rhs[k])

theorem map_fst_finished (s : Elimination α n) : s.finished.map (·.1) = List.ofFn s.line := by
  rw [finished, List.map_ofFn]
  rfl

theorem map_snd_finished (s : Elimination α n) : s.finished.map (·.2) = s.rhs.toList := by
  apply List.ext_getElem
  · simp [finished]
  · intro i _ _
    simp [finished]

/-- What `t` has kept of `s`: all in front of place `j`, and the entries above the diagonal. -/
structure Keeps (j : Nat) (s t : Elimination α n) : Prop where
  columns : ∀ (k : Nat) (hk : k < n), k < j → t.columns[k] = s.columns[k]
  above : ∀ (k i : Nat) (hk : k < n) (hi : i < k), t.columns[k][i] = s.columns[k][i]
  row : ∀ (i : Nat) (hi : i < n), i < j → t.row[i] = s.row[i]
  rhs : ∀ (i : Nat) (hi : i < n), i < j → t.rhs[i] = s.rhs[i]

variable {j k : Nat} {s t u : Elimination α n}

theorem Keeps.refl (j : Nat) (s : Elimination α n) : Keeps j s s :=
  ⟨fun _ _ _ => rfl, fun _ _ _ _ => rfl, fun _ _ _ => rfl, fun _ _ _ => rfl⟩

theorem Keeps.trans (h : Keeps j s t) (hjk : j ≤ k) (h' : Keeps k t u) : Keeps j s u where
  columns i hi hij := (h'.columns i hi (Nat.lt_of_lt_of_le hij hjk)).trans (h.columns i hi hij)
  above i l hi hl := (h'.above i l hi hl).trans (h.above i l hi hl)
  row i hi hij := (h'.row i hi (Nat.lt_of_lt_of_le hij hjk)).trans (h.row i hi hij)
  rhs i hi hij := (h'.rhs i hi (Nat.lt_of_lt_of_le hij hjk)).trans (h.rhs i hi hij)

theorem drop_lines (s : Elimination α n) (hk : k < n) :
    s.lines.drop k = (⟨s.columns[k][k], s.columns[k].toList.drop (k + 1)⟩, s.rhs[k]) ::
      s.lines.drop (k + 1) :=
  drop_ofFn_eq_cons _ hk

theorem Keeps.drop_lines (h : Keeps (k + 1) s t) (hk : k < n) :
    t.lines.drop k = (⟨s.columns[k][k], s.columns[k].toList.drop (k + 1)⟩, s.rhs[k]) ::
      t.lines.drop (k + 1) := by
  rw [Elimination.drop_lines t hk, h.columns k hk (Nat.lt_succ_self k),
    h.rhs k hk (Nat.lt_succ_self k)]

theorem keeps_finish (s : Elimination α n) (saved : Vector α n) (j : Fin n) :
    Keeps j s (s.finish saved j) where
  columns k hk hkj := by simp [finish, Vector.getElem_set_ne _ _ (Nat.ne_of_gt hkj)]
  above k i hk hi := by
    by_cases hjk : (j : Nat) = k
    · subst hjk
      simp [finish, Vector.getElem_set_ne _ _ (Nat.ne_of_gt hi)]
    · simp [finish, Vector.getElem_set_ne _ _ hjk]
  row i hi hij := by simp [finish, Vector.getElem_set_ne _ _ (Nat.ne_of_gt hij)]
  rhs _ _ _ := rfl

theorem drop_lines_finish (s : Elimination α n) (saved : Vector α n) (j : Fin n) :
    (s.finish saved j).lines.drop (j + 1) = s.lines.drop (j + 1) := by
  refine drop_ofFn_congr fun i _ hi => ?_
  have hne : (j : Nat) ≠ i := Nat.ne_of_lt hi
  simp [finish, Vector.getElem_set_ne _ _ hne]

variable [Scalar α]

/-! ## One row -/

theorem keeps_rotate (s : Elimination α n) (k : Fin n) : Keeps k s (s.rotate k) where
  columns i hi hik := by
    simp [rotate, Vector.getElem_set_ne _ _ (Nat.ne_of_gt hik)]
  above i l hi hl := by
    by_cases hki : (k : Nat) = i
    · subst hki
      simp [rotate, hl]
    · simp [rotate, Vector.getElem_set_ne _ _ hki]
  row i hi hik := by
    simp [rotate, Nat.lt_succ_of_lt hik]
  rhs i hi hik := by
    simp [rotate, Vector.getElem_set_ne _ _ (Nat.ne_of_gt hik)]

theorem keeps_sweep (s : Elimination α n) (k : Nat) : Keeps k s (s.sweep k) := by
  fun_induction sweep s k with
  | case1 s k hk s' ih =>
      refine Keeps.trans ?_ (Nat.le_succ k) ih
      by_cases hzero : Scalar.isZero s.row[k]
      · rw [show s' = s from if_pos hzero]
        exact .refl k s
      · rw [show s' = s.rotate ⟨k, hk⟩ from if_neg hzero]
        exact keeps_rotate s ⟨k, hk⟩
  | case2 s k hk => exact .refl k s

theorem drop_lines_rotate (s : Elimination α n) (hk : k < n) :
    (s.rotate ⟨k, hk⟩).lines.drop (k + 1) = s.lines.drop (k + 1) := by
  refine drop_ofFn_congr fun i _ hi => ?_
  have hne : k ≠ i := Nat.ne_of_lt hi
  simp [rotate, Vector.getElem_set_ne _ _ hne]

theorem drop_row_rotate (s : Elimination α n) (hk : k < n) :
    (s.rotate ⟨k, hk⟩).row.toList.drop (k + 1) =
      List.zipWith
        (fun r e => -(DampedSystem.rotation s.columns[k][k] s.row[k]).1 * r +
          (DampedSystem.rotation s.columns[k][k] s.row[k]).2 * e)
        (s.columns[k].toList.drop (k + 1)) (s.row.toList.drop (k + 1)) := by
  rw [rotate, drop_writeFrom (Nat.le_refl _)]
  apply List.ext_getElem
  · simp
  · intro i _ _
    simp

theorem drop_column_rotate (s : Elimination α n) (hk : k < n) :
    (s.rotate ⟨k, hk⟩).columns[k].toList.drop (k + 1) =
      List.zipWith
        (fun r e => (DampedSystem.rotation s.columns[k][k] s.row[k]).2 * r +
          (DampedSystem.rotation s.columns[k][k] s.row[k]).1 * e)
        (s.columns[k].toList.drop (k + 1)) (s.row.toList.drop (k + 1)) := by
  simp only [rotate, Vector.getElem_set_self]
  rw [drop_writeFrom (Nat.le_succ _)]
  apply List.ext_getElem
  · simp
  · intro i _ _
    simp

/-- A sweep absorbs the row into the lines. -/
theorem lines_sweep (s : Elimination α n) (k : Nat) :
    (s.sweep k).lines.drop k =
      DampedSystem.absorb (s.lines.drop k) (s.row.toList.drop k) s.extra := by
  fun_induction sweep s k with
  | case1 s k hk s' ih =>
      rw [(keeps_sweep s' (k + 1)).drop_lines hk, ih, s.drop_lines hk, drop_toList_eq_cons s.row hk]
      by_cases hzero : Scalar.isZero s.row[k]
      · rw [show s' = s from if_pos hzero, DampedSystem.absorb, if_pos hzero]
      · rw [show s' = s.rotate ⟨k, hk⟩ from if_neg hzero, DampedSystem.absorb, if_neg hzero]
        rw [drop_lines_rotate, drop_row_rotate, drop_column_rotate]
        simp [rotate]
  | case2 s k hk =>
      have hlines : s.lines.drop k = [] := List.drop_eq_nil_of_le (by simpa [lines] using hk)
      rw [hlines, DampedSystem.absorb]
      exact nofun

/-! ## A diagonal -/

theorem keeps_start (s : Elimination α n) (j : Nat) (d : α) : Keeps j s (s.start j d) where
  columns _ _ _ := rfl
  above _ _ _ _ := rfl
  row i hi hij := by simp [start, hij]
  rhs _ _ _ := rfl

theorem drop_row_start (s : Elimination α n) {j : Nat} (hj : j < n) (d : α) :
    (s.start j d).row.toList.drop j = d :: Vec.zeros (n - (j + 1)) := by
  rw [start, drop_writeFrom (Nat.le_refl j), drop_ofFn_eq_cons _ hj, if_pos rfl, Vec.zeros]
  congr 1
  refine List.eq_replicate_iff.mpr ⟨by simp, fun a ha => ?_⟩
  obtain ⟨i, hi, rfl⟩ := List.mem_iff_getElem.mp ha
  rw [List.getElem_drop, List.getElem_ofFn]
  exact if_neg (by simp only; omega)

private theorem keeps_pass (s : Elimination α n) (j : Nat) (d : α) :
    Keeps j s (if Scalar.isZero d then s else (s.start j d).sweep j) := by
  split
  · exact .refl j s
  · exact (keeps_start s j d).trans (Nat.le_refl j) (keeps_sweep _ j)

theorem keeps_eliminate (saved diagonal : Vector α n) (s : Elimination α n) (j : Nat) :
    Keeps j s (eliminate saved diagonal s j) := by
  fun_induction eliminate saved diagonal s j with
  | case1 s j hj s' ih =>
      have hpass : Keeps j s s' := keeps_pass s j diagonal[j]
      exact (hpass.trans (Nat.le_refl j) (keeps_finish s' saved ⟨j, hj⟩)).trans (Nat.le_succ j) ih
  | case2 s j hj => exact .refl j s

theorem diagonal_eliminate (saved diagonal : Vector α n) (s : Elimination α n) (j : Nat) :
    ∀ (k : Nat) (hk : k < n), j ≤ k →
      (eliminate saved diagonal s j).columns[k][k] = saved[k] := by
  fun_induction eliminate saved diagonal s j with
  | case1 s j hj s' ih =>
      intro k hk hjk
      rcases Nat.lt_or_eq_of_le hjk with hjk | rfl
      · exact ih k hk hjk
      · rw [(keeps_eliminate saved diagonal _ (j + 1)).columns j hk (Nat.lt_succ_self j)]
        simp [finish]
  | case2 s j hj => exact fun k hk hjk => absurd (Nat.lt_of_le_of_lt hjk hk) hj

theorem lines_pass (s : Elimination α n) {j : Nat} (hj : j < n) (d : α) :
    (if Scalar.isZero d then s else (s.start j d).sweep j).lines.drop j =
      if Scalar.isZero d then s.lines.drop j
      else DampedSystem.absorb (s.lines.drop j) (d :: Vec.zeros (n - (j + 1))) 0 := by
  split
  · rfl
  · rw [lines_sweep, drop_row_start s hj]
    rfl

theorem finished_eliminate (saved diagonal : Vector α n) (s : Elimination α n) (j : Nat) :
    (eliminate saved diagonal s j).finished.drop j =
      DampedSystem.absorbDiagonal (diagonal.toList.drop j) (s.lines.drop j) := by
  fun_induction eliminate saved diagonal s j with
  | case1 s j hj s' ih =>
      have hkeeps := keeps_eliminate saved diagonal (s'.finish saved ⟨j, hj⟩) (j + 1)
      have hlines := drop_lines_finish s' saved ⟨j, hj⟩
      have hpass : s'.lines.drop j = _ := lines_pass s hj diagonal[j]
      rw [drop_toList_eq_cons diagonal hj, s.drop_lines hj, DampedSystem.absorbDiagonal,
        ← s.drop_lines hj, List.length_drop, lines, List.length_ofFn, ← lines, ← hpass,
        s'.drop_lines hj]
      generalize eliminate saved diagonal (s'.finish saved ⟨j, hj⟩) (j + 1) = t at ih hkeeps ⊢
      -- the place that is finished
      rw [finished, drop_ofFn_eq_cons _ hj, ← finished, ih, hlines]
      congr 1
      simp [hkeeps.row j hj (Nat.lt_succ_self j), hkeeps.columns j hj (Nat.lt_succ_self j),
        hkeeps.rhs j hj (Nat.lt_succ_self j), finish, line, Vector.toList_set, List.drop_set_of_lt]
  | case2 s j hj =>
      have hfinished : s.finished.drop j = [] :=
        List.drop_eq_nil_of_le (by simpa [finished] using hj)
      have hlines : s.lines.drop j = [] := List.drop_eq_nil_of_le (by simpa [lines] using hj)
      rw [hfinished, hlines, DampedSystem.absorbDiagonal]
      exact nofun

end Elimination

end Minima
