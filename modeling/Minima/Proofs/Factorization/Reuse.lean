import Minima.Proofs.Factorization.Elimination

/-!
# One storage for all calls

Each routine of a `Workspace` answers as the `DampedSystem` whose data it holds, whatever the
scratch vector and the lower part hold from the calls before, and leaves the data of the system as
they are.  So every call of a sequence answers as it would be the first one.
-/

namespace Minima

variable {α : Type} {n : Nat}

/-! ## Substitution -/

section substitution

variable {lines : Fin n → Line α} {r : Nat} {b x : Vector α n}

theorem drop_take_set (x : Vector α n) {j : Nat} (hj : j < n) (hjr : j < r) (a : α) :
    ((x.set j a).toList.take r).drop j = a :: (x.toList.take r).drop (j + 1) := by
  rw [Vector.toList_set, List.take_set, List.drop_set, if_neg (Nat.lt_irrefl j), Nat.sub_self,
    List.drop_eq_getElem_cons (by simp; omega), List.set_cons_zero]

variable [Scalar α]

theorem take_substitute {j : Nat} (hj : j ≤ n) (hjr : j ≤ r)
    (hfront : ∀ (i : Nat) (hi : i < n), i < j → x[i] = b[i])
    (hknown : (x.toList.take r).drop j =
      Line.solveUpper (((List.ofFn lines).take r).drop j) (b.toList.drop j)) :
    (Workspace.substitute lines r j hj x).toList.take r =
      Line.solveUpper ((List.ofFn lines).take r) b.toList := by
  induction j generalizing x with
  | zero => exact hknown
  | succ j ih =>
      have hlines : ((List.ofFn lines).take r).drop j =
          lines ⟨j, hj⟩ :: ((List.ofFn lines).take r).drop (j + 1) := by
        rw [List.drop_eq_getElem_cons (by simp; omega), List.getElem_take, List.getElem_ofFn]
      rw [Workspace.substitute]
      refine ih (Nat.le_of_succ_le hj) (Nat.le_of_succ_le hjr) (fun i hi hij => ?_) ?_
      · rw [Vector.getElem_set_ne _ _ (Nat.ne_of_gt hij)]
        exact hfront i hi (Nat.lt_succ_of_lt hij)
      · rw [drop_take_set x hj hjr, hknown, hlines, drop_toList_eq_cons b hj, Line.solveUpper,
          hfront j hj (Nat.lt_succ_self j)]

theorem drop_substitute {j : Nat} (hj : j ≤ n) (hjr : j ≤ r) :
    (Workspace.substitute lines r j hj x).toList.drop r = x.toList.drop r := by
  induction j generalizing x with
  | zero => rfl
  | succ j ih =>
      rw [Workspace.substitute, ih (Nat.le_of_succ_le hj) (Nat.le_of_succ_le hjr),
        Vector.toList_set, List.drop_set_of_lt hjr]

theorem regular_ofFn (lines : Fin n → Line α) :
    Line.regular (List.ofFn lines) = (List.ofFn lines).take (Workspace.rank lines) := by
  rw [Line.regular, List.takeWhile_eq_take_findIdx_not]
  simp only [Bool.not_not]
  rfl

theorem toList_substitute (hr : r ≤ n) (lines : Fin n → Line α) (b : Vector α n) :
    (Workspace.substitute lines r r hr (writeFrom r (fun _ => 0) b)).toList =
      Line.solveUpper ((List.ofFn lines).take r) b.toList ++ Vec.zeros
        (n - (Line.solveUpper ((List.ofFn lines).take r) b.toList).length) := by
  have hregular : (Workspace.substitute lines r r hr (writeFrom r (fun _ => 0) b)).toList.take r =
      Line.solveUpper ((List.ofFn lines).take r) b.toList := by
    refine take_substitute hr (Nat.le_refl r) (fun i hi hir => by simp [hir]) ?_
    rw [List.drop_eq_nil_of_le (List.length_take_le _ _),
      List.drop_eq_nil_of_le (List.length_take_le _ _), Line.solveUpper]
    exact nofun
  have hrest : (Workspace.substitute lines r r hr (writeFrom r (fun _ => 0) b)).toList.drop r =
      Vec.zeros (n - r) := by
    rw [drop_substitute hr (Nat.le_refl r), drop_writeFrom (Nat.le_refl r)]
    exact List.ext_getElem (by simp [Vec.zeros]) fun i _ _ => by simp [Vec.zeros]
  have hlength := congrArg List.length hregular
  simp only [List.length_take, Vector.length_toList, Nat.min_eq_left hr] at hlength
  rw [← List.take_append_drop r (Workspace.substitute lines r r hr _).toList, hregular, hrest,
    ← hlength]

theorem toList_solveRegular (lines : Fin n → Line α) (b : Vector α n) :
    (Workspace.solveRegular lines b).toList = Line.solveRegular (List.ofFn lines) b.toList := by
  rw [Line.solveRegular, regular_ofFn, Workspace.solveRegular, toList_substitute, List.length_ofFn]

end substitution

/-! ## Pivot order -/

namespace Workspace

theorem foldl_set_congr {entries : List (Nat × α)} {x y : List α} (hlength : x.length = y.length)
    (h : ∀ i < x.length, x[i]? = y[i]? ∨ i ∈ entries.map (·.1)) :
    entries.foldl (fun x (i, a) => x.set i a) x = entries.foldl (fun x (i, a) => x.set i a) y := by
  induction entries generalizing x y with
  | nil =>
      refine List.ext_getElem? fun i => ?_
      rcases Nat.lt_or_ge i x.length with hi | hi
      · simpa using h i hi
      · rw [List.foldl_nil, List.foldl_nil, List.getElem?_eq_none hi,
          List.getElem?_eq_none (hlength ▸ hi)]
  | cons entry entries ih =>
      rw [List.foldl_cons, List.foldl_cons]
      refine ih (by simpa using hlength) fun i hi => ?_
      rw [List.length_set] at hi
      by_cases hentry : entry.1 = i
      · left
        subst hentry
        rw [List.getElem?_set_self hi, List.getElem?_set_self (hlength ▸ hi)]
      · rw [List.getElem?_set_ne hentry, List.getElem?_set_ne hentry]
        exact (h i hi).imp_right fun hmem =>
          (List.mem_cons.mp hmem).resolve_left (Ne.symm hentry)

theorem toList_foldl_set (entries : List (Fin n × α)) (x : Vector α n) :
    (entries.foldl (fun x (i, a) => x.set i.val a i.isLt) x).toList =
      (entries.map fun (i, a) => (i.val, a)).foldl (fun x (i, a) => x.set i a) x.toList := by
  induction entries generalizing x with
  | nil => rfl
  | cons entry entries ih =>
      rw [List.foldl_cons, ih, List.map_cons, List.foldl_cons, Vector.toList_set]

variable [Scalar α]

theorem toList_gather (permutation : Vector (Fin n) n) (v : Vector α n) :
    (gather permutation v).toList = Minima.gather (permutation.toList.map (·.val)) v.toList := by
  apply List.ext_getElem
  · simp [Minima.gather]
  · intro i _ _
    simp [gather, Minima.gather]

theorem toList_scatter (w : Workspace α n) (v x : Vector α n) :
    (scatter w.permutation v x).toList =
      Minima.scatter (w.permutation.toList.map (·.val)) v.toList := by
  have hzip : (w.permutation.toList.zip v.toList).map (fun (i, a) => (i.val, a)) =
      (w.permutation.toList.map (·.val)).zip v.toList := by
    rw [List.zip_map_left]
    rfl
  rw [scatter, toList_foldl_set, hzip, Minima.scatter]
  refine foldl_set_congr (by simp [Vec.zeros]) fun i hi => Or.inr ?_
  have hi : i < n := by simpa using hi
  rw [List.map_fst_zip (by simp)]
  exact List.mem_map.mpr ⟨⟨i, hi⟩, Vector.mem_toList_iff.mpr (w.complete ⟨i, hi⟩), rfl⟩

/-! ## Solutions -/

theorem linesFrom_upper (w : Workspace α n) (j : Nat) :
    linesFrom j (w.upper.drop j) = (List.ofFn w.row).drop j := by
  by_cases hj : j < n
  · have hrow : (w.upper.drop (j + 1)).map (·.above.getD j 0) =
        (w.across ⟨j, hj⟩).drop (j + 1) := by
      apply List.ext_getElem
      · simp [upper, across]
      · intro i hi _
        have hi : i < n - (j + 1) := by simpa [upper] using hi
        simp [upper, across, List.getD_eq_getElem?_getD, show j < j + 1 + i by omega, hj]
    rw [upper, drop_ofFn_eq_cons _ hj, ← upper, linesFrom, hrow, linesFrom_upper w (j + 1),
      drop_ofFn_eq_cons w.row hj]
    rfl
  · rw [List.drop_eq_nil_of_le (by simpa [upper] using hj),
      List.drop_eq_nil_of_le (by simpa using hj), linesFrom]
termination_by n - j

theorem lines_upper (w : Workspace α n) : Head.lines w.upper = List.ofFn w.row :=
  linesFrom_upper w 0

theorem lines_mirrored (w : Workspace α n) (row rhs : Vector α n) (extra : α) :
    (⟨mirrored w.columns, row, rhs, extra⟩ : Elimination α n).lines =
      (Head.lines w.upper).zip rhs.toList := by
  rw [lines_upper]
  apply List.ext_getElem
  · simp [Elimination.lines]
  · intro k _ _
    simp [Elimination.lines, Workspace.row, across, mirrored, drop_writeFrom (Nat.le_refl _)]

theorem upper_elimination (w : Workspace α n) (d scratch : Vector α n) :
    upper { w with
      columns := (w.elimination d).columns, diagonal := (w.elimination d).row, scratch } =
        w.upper := by
  have hkeeps := Elimination.keeps_eliminate w.saved (gather w.permutation d)
    ⟨mirrored w.columns, w.diagonal, w.rhs, 0⟩ 0
  have hdiagonal := Elimination.diagonal_eliminate w.saved (gather w.permutation d)
    ⟨mirrored w.columns, w.diagonal, w.rhs, 0⟩ 0
  rw [← elimination] at hkeeps hdiagonal
  refine congrArg List.ofFn (funext fun k => ?_)
  congr 1
  · apply List.ext_getElem
    · simp
    · intro i hi _
      have hik : i < k := by simpa [Nat.lt_min] using hi
      simp [hkeeps.above k i k.isLt hik, mirrored, Nat.lt_succ_of_lt hik]
  · simp [hdiagonal k k.isLt (Nat.zero_le k), saved]

theorem finished_elimination (w : Workspace α n) (d : Vector α n) :
    (w.elimination d).finished =
      DampedSystem.absorbDiagonal (Minima.gather w.system.permutation d.toList)
        ((Head.lines w.system.upper).zip w.system.rhs) := by
  have hfinished := Elimination.finished_eliminate w.saved (gather w.permutation d)
    ⟨mirrored w.columns, w.diagonal, w.rhs, 0⟩ 0
  rw [List.drop_zero, List.drop_zero, List.drop_zero, lines_mirrored, toList_gather] at hfinished
  exact hfinished

theorem toList_solveUndamped (w : Workspace α n) :
    w.solveUndamped.1.toList = w.system.solveUndamped := by
  rw [solveUndamped, toList_scatter, toList_solveRegular, DampedSystem.solveUndamped]
  rw [show w.system.upper = w.upper from rfl, lines_upper]
  rfl

theorem toList_solve (w : Workspace α n) (d : Vector α n) :
    (w.solve d).1.toList = (w.system.solve d.toList).1 := by
  rw [DampedSystem.solve, ← finished_elimination, Elimination.map_fst_finished,
    Elimination.map_snd_finished, solve, toList_scatter, toList_solveRegular]
  rfl

theorem system_solve (w : Workspace α n) (d : Vector α n) :
    (w.solve d).2.system = (w.system.solve d.toList).2 := by
  rw [DampedSystem.solve, ← finished_elimination, Elimination.map_fst_finished, solve]
  simp only [system, upper_elimination]
  rfl

/-! ## Lengths and angles -/

theorem mul_take (a b : Vec α) {k : Nat} (h : a.length ≤ k) :
    Vec.mul a (b.take k) = Vec.mul a b := by
  induction a generalizing b k with
  | nil => simp [Vec.mul]
  | cons x a ih =>
      obtain ⟨k, rfl⟩ : ∃ l, k = l + 1 :=
        Nat.exists_eq_add_of_le' (Nat.le_trans (Nat.le_add_left 1 _) h)
      cases b with
      | nil => rfl
      | cons y b =>
          have ih := ih b (Nat.le_of_succ_le_succ h)
          simp only [Vec.mul] at ih
          simp [Vec.mul, ih]

theorem dot_concat {a b : Vec α} (h : a.length = b.length) (x y : α) :
    Vec.dot (a ++ [x]) (b ++ [y]) = Vec.dot a b + x * y := by
  rw [Vec.dot, Vec.mul, List.zipWith_append h, Vec.sum, List.foldl_append]
  rfl

theorem cosines_eq (w : Workspace α n) (length : α) (hscratch : w.scratch = w.rhs.map (· / length))
    (largest : α) (k : Nat) :
    w.cosines largest k = DampedSystem.maxCosine.go w.system length largest
      ((w.upper.zip (gather w.permutation w.columnNorms).toList).drop k) := by
  rw [cosines]
  split
  case isTrue hk =>
    have hdrop : (w.upper.zip (gather w.permutation w.columnNorms).toList).drop k =
        (⟨w.columns[k].toList.take k, w.columns[k][k]⟩, w.columnNorms[w.permutation[k]]) ::
          (w.upper.zip (gather w.permutation w.columnNorms).toList).drop (k + 1) := by
      rw [List.drop_eq_getElem_cons (by simp [upper, hk])]
      simp [upper, gather]
    have hcolumn : w.columns[k].toList.take k ++ [w.columns[k][k]] =
        w.columns[k].toList.take (k + 1) := by
      rw [List.take_add_one]
      simp [hk]
    have hdot : Vec.dot (w.columns[k].toList.take (k + 1)) (w.scratch.toList.take (k + 1)) =
        Vec.dot (w.columns[k].toList.take (k + 1))
          (DampedSystem.maxCosine.rhs w.system length) := by
      rw [Vec.dot, mul_take _ _ (List.length_take_le _ _), hscratch, Vector.toList_map]
      rfl
    rw [hdrop, DampedSystem.maxCosine.go, hcolumn, ← hdot]
    simp only [cosines_eq w length hscratch _ (k + 1)]
  case isFalse hk =>
    rw [List.drop_eq_nil_of_le (by simpa [upper] using hk), DampedSystem.maxCosine.go]
termination_by n - k

theorem fst_maxCosine (w : Workspace α n) (length : α) :
    (w.maxCosine length).1 = w.system.maxCosine length := by
  rw [maxCosine, cosines_eq _ length rfl, DampedSystem.maxCosine, List.drop_zero, toList_gather]
  rfl

def rowSum (w : Workspace α n) (x : Vector α n) (k : Nat) (i : Fin n) : α :=
  Vec.dot (((w.across i).take k).drop i) (((gather w.permutation x).toList.take k).drop i)

theorem rowSum_succ (w : Workspace α n) (x : Vector α n) {k i : Nat} (hk : k < n) (hi : i < n) :
    w.rowSum x (k + 1) ⟨i, hi⟩ =
      if i ≤ k then w.rowSum x k ⟨i, hi⟩ + w.columns[k][i] * (gather w.permutation x)[k]
      else w.rowSum x k ⟨i, hi⟩ := by
  split
  case isTrue hik =>
    have hlast {a : List α} (ha : k < a.length) :
        (a.take (k + 1)).drop i = (a.take k).drop i ++ [a[k]] := by
      rw [List.take_add_one, List.getElem?_eq_getElem ha, Option.toList_some,
        List.drop_append_of_le_length (by rw [List.length_take]; omega)]
    rw [rowSum, hlast (by simpa [across] using hk), hlast (by simpa using hk),
      dot_concat (by simp [across])]
    simp [rowSum, across]
  case isFalse hik =>
    have hnone (a : List α) : (a.take (k + 1)).drop i = (a.take k).drop i := by
      rw [List.drop_eq_nil_of_le (by rw [List.length_take]; omega),
        List.drop_eq_nil_of_le (by rw [List.length_take]; omega)]
    rw [rowSum, hnone, hnone, rowSum]

theorem addColumns_eq (w : Workspace α n) (x sum : Vector α n) {k : Nat} (hk : k ≤ n)
    (h : ∀ (i : Nat) (hi : i < n), sum[i] = w.rowSum x k ⟨i, hi⟩) (i : Nat) (hi : i < n) :
    (w.addColumns x sum k)[i] = w.rowSum x n ⟨i, hi⟩ := by
  fun_induction addColumns w x sum k with
  | case1 sum k hkn ih =>
      refine ih hkn fun i hi => ?_
      rw [rowSum_succ w x hkn, ← h i hi]
      simp [gather]
  | case2 sum k hkn =>
      obtain rfl : k = n := Nat.le_antisymm hk (Nat.not_lt.mp hkn)
      exact h i hi

theorem imageLength_go_row (w : Workspace α n) (x : Vector α n) (j : Nat) :
    DampedSystem.imageLength.go ((List.ofFn w.row).drop j) (x.toList.drop j) =
      (List.ofFn fun i : Fin n => Vec.dot ((w.across i).drop i) (x.toList.drop i)).drop j := by
  by_cases hj : j < n
  · rw [drop_ofFn_eq_cons w.row hj, drop_toList_eq_cons x hj, DampedSystem.imageLength.go,
      imageLength_go_row w x (j + 1), drop_ofFn_eq_cons _ hj, drop_toList_eq_cons x hj,
      across, drop_ofFn_eq_cons _ hj]
    rfl
  · rw [List.drop_eq_nil_of_le (by simpa using hj), List.drop_eq_nil_of_le (by simpa using hj),
      List.drop_eq_nil_of_le (by simpa using hj), DampedSystem.imageLength.go]
    exact nofun
termination_by n - j

theorem fst_imageLength (norm : Norm) (w : Workspace α n) (x : Vector α n) :
    (w.imageLength norm x).1 = w.system.imageLength norm x.toList := by
  have hsums : (w.addColumns x (Vector.replicate n 0) 0).toList =
      DampedSystem.imageLength.go (Head.lines w.upper) (gather w.permutation x).toList := by
    have hrows := imageLength_go_row w (gather w.permutation x) 0
    simp only [List.drop_zero] at hrows
    rw [lines_upper, hrows]
    apply List.ext_getElem
    · simp
    · intro i hi _
      have hi : i < n := by simpa using hi
      have hsum := w.addColumns_eq x (Vector.replicate n 0) (Nat.zero_le n)
        (fun i hi => by simp [rowSum, Vec.dot, Vec.mul, Vec.sum]) i hi
      simpa [rowSum, across, List.take_of_length_le] using hsum
  rw [imageLength, hsums, toList_gather, DampedSystem.imageLength]
  rfl

/-! ## The factors -/

theorem drop_accumulated (s : α) (a x : Vector α n) (j : Nat) :
    (List.ofFn fun i : Fin n => s * a.get i + x.get i).drop j =
      Vec.accumulate s (a.toList.drop j) (x.toList.drop j) := by
  apply List.ext_getElem
  · simp [Vec.accumulate]
  · intro i _ _
    simp only [Vec.accumulate, List.getElem_drop, List.getElem_ofFn, List.getElem_zipWith,
      Vector.getElem_toList]
    rfl

theorem take_forward (w : Workspace α n) (x : Vector α n) (j : Nat) :
    (w.forward x j).toList.take j = x.toList.take j := by
  fun_induction forward w x j with
  | case1 x j hj a ih =>
      have hnext := congrArg (List.take j) ih
      rw [List.take_take, List.take_take, Nat.min_eq_left (Nat.le_succ j)] at hnext
      rw [hnext]
      apply List.ext_getElem
      · simp
      · intro i hi _
        have hij : i < j := by simp at hi; omega
        simp [Nat.lt_succ_of_lt hij, Vector.getElem_set_ne _ _ (Nat.ne_of_gt hij)]
  | case2 x j hj => rfl

theorem drop_forward (w : Workspace α n) (x : Vector α n) (j : Nat) :
    (w.forward x j).toList.drop j = Line.solveLower (w.lower.drop j) (x.toList.drop j) := by
  fun_induction forward w x j with
  | case1 x j hj a ih =>
      have htake := take_forward w
        (writeFrom (j + 1) (fun i => -a * w.columns[j][i] + x[i]) (x.set j a)) (j + 1)
      have hrest := (drop_writeFrom (Nat.le_refl (j + 1)) (fun i => -a * w.columns[j][i] + x[i])
        (x.set j a)).trans (drop_accumulated (-a) w.columns[j] x (j + 1))
      generalize w.forward _ (j + 1) = y at htake ih ⊢
      have hentry : y[j] = a := by
        have hentry := congrArg (fun l => l[j]?) htake
        simpa [hj] using hentry
      rw [drop_toList_eq_cons y hj, hentry, ih, hrest, lower, drop_ofFn_eq_cons _ hj,
        drop_toList_eq_cons x hj, Line.solveLower]
      rfl
  | case2 x j hj =>
      rw [List.drop_eq_nil_of_le (by simpa using hj),
        List.drop_eq_nil_of_le (by simpa [lower] using hj)]
      rfl

theorem toList_forwardTransposed (w : Workspace α n) (x : Vector α n) (j : Nat) :
    (w.forwardTransposed x j).toList =
      ((w.upper.zip x.toList).drop j).foldl
        (fun x (c, b) => x ++ [(b - Vec.dot x c.above) / c.diagonal]) (x.toList.take j) := by
  fun_induction forwardTransposed w x j with
  | case1 x j hj sum ih =>
      have hopen : (w.upper.zip x.toList).drop j =
          (⟨w.columns[j].toList.take j, w.columns[j][j]⟩, x[j]) ::
            (w.upper.zip x.toList).drop (j + 1) := by
        rw [List.drop_eq_getElem_cons (by simp [upper, hj])]
        simp [upper]
      have hrest (a : α) : (w.upper.zip (x.set j a).toList).drop (j + 1) =
          (w.upper.zip x.toList).drop (j + 1) := by
        rw [List.zip, List.drop_zipWith, Vector.toList_set,
          List.drop_set_of_lt (Nat.lt_succ_self j), ← List.drop_zipWith]
      have hdone (a : α) : (x.set j a).toList.take (j + 1) = x.toList.take j ++ [a] := by
        rw [List.take_add_one, Vector.toList_set, List.take_set_of_le (Nat.le_refl j)]
        simp [hj]
      rw [ih, hrest, hdone, hopen, List.foldl_cons]
  | case2 x j hj =>
      rw [List.drop_eq_nil_of_le (by simpa [upper] using hj), List.foldl_nil,
        List.take_of_length_le (by simpa using hj)]

def factor (w : Workspace α n) (lower : Bool) : Factor α :=
  if lower then w.system.lowerFactor else w.system.upperFactor

theorem fst_solveFactor (w : Workspace α n) (lower : Bool) (v : Vector α n) :
    (w.solveFactor lower v).1.toList = (w.factor lower).solve v.toList := by
  cases lower with
  | true =>
      have hforward := drop_forward w (gather w.permutation v) 0
      rw [List.drop_zero, List.drop_zero, List.drop_zero, toList_gather] at hforward
      exact hforward
  | false =>
      have hforward := toList_forwardTransposed w (gather w.permutation v) 0
      rw [List.drop_zero, List.take_zero, toList_gather] at hforward
      exact hforward

omit [Scalar α] in
theorem take_toList_succ (v : Vector α n) {j : Nat} (hj : j < n) :
    v.toList.take (j + 1) = v.toList.take j ++ [v[j]] := by
  rw [List.take_add_one]
  simp [hj]

theorem getElem_addLower_of_lt (w : Workspace α n) (sum : Vector α n) {i j : Nat} (hi : i < n)
    (hij : i < j) : (w.addLower sum j)[i] = sum[i] := by
  fun_induction addLower w sum j with
  | case1 sum j hj b ih =>
      rw [ih (Nat.lt_succ_of_lt hij)]
      simp [Nat.lt_succ_of_lt hij, Vector.getElem_set_ne _ _ (Nat.ne_of_gt hij)]
  | case2 sum j hj => rfl

theorem drop_addLower (w : Workspace α n) (sum : Vector α n) (j : Nat) :
    (w.addLower sum j).toList.drop j =
      Line.mulLower (w.lower.drop j) (w.rhs.toList.drop j) (sum.toList.drop j) := by
  fun_induction addLower w sum j with
  | case1 sum j hj b ih =>
      have hentry := getElem_addLower_of_lt w (writeFrom (j + 1)
        (fun i => b * w.columns[j][i] + sum[i]) (sum.set j (sum[j] + b * w.diagonal[j]))) hj
        (Nat.lt_succ_self j)
      have hrest := (drop_writeFrom (Nat.le_refl (j + 1)) (fun i => b * w.columns[j][i] + sum[i])
        (sum.set j (sum[j] + b * w.diagonal[j]))).trans
        (drop_accumulated b w.columns[j] sum (j + 1))
      rw [drop_toList_eq_cons _ hj, hentry, ih, hrest, lower, drop_ofFn_eq_cons _ hj,
        drop_toList_eq_cons w.rhs hj, drop_toList_eq_cons sum hj, Line.mulLower]
      simp [b]
  | case2 sum j hj =>
      rw [List.drop_eq_nil_of_le (by simpa using hj),
        List.drop_eq_nil_of_le (by simpa [lower] using hj),
        List.drop_eq_nil_of_le (by simpa using hj), Line.mulLower.eq_def]

theorem toList_mulFactor (w : Workspace α n) (lower : Bool) (out : Vector α n) :
    (w.mulFactor lower out).toList = (w.factor lower).mulRhs := by
  cases lower with
  | true =>
      have hadd := drop_addLower w (writeFrom 0 (fun _ => 0) out) 0
      have hzeros : (writeFrom 0 (fun _ => 0) out).toList = (Vec.zeros w.lower.length : Vec α) := by
        apply List.ext_getElem <;> simp [Vec.zeros, Workspace.lower]
      rw [List.drop_zero, List.drop_zero, List.drop_zero, List.drop_zero, hzeros] at hadd
      exact hadd
  | false =>
      apply List.ext_getElem
      · simp [factor, Factor.mulRhs, system, upper, DampedSystem.upperFactor, Triangle.mul,
          Head.mulTransposed]
      · intro i hi _
        have hi : i < n := by simpa using hi
        have hrow : Vec.mul w.rhs.toList (w.columns[i].toList.take (i + 1)) =
            Vec.mul (w.rhs.toList.take (i + 1)) (w.columns[i].toList.take (i + 1)) := by
          apply List.ext_getElem
          · simp [Vec.mul, Nat.min_comm]
          · intro k _ _
            simp [Vec.mul]
        have hentry : (w.mulFactor false out)[i] =
            Vec.dot (w.rhs.toList.take (i + 1)) (w.columns[i].toList.take (i + 1)) :=
          getElem_writeFrom _ _ _ _ hi
        rw [Vector.getElem_toList, hentry, Vec.dot, ← hrow]
        simp [factor, Factor.mulRhs, system, upper, DampedSystem.upperFactor, Triangle.mul,
          Head.mulTransposed, ← take_toList_succ _ hi, Vec.dot]

theorem isNonSingular_eq (w : Workspace α n) (lower : Bool) :
    w.isNonSingular lower = (w.factor lower).isNonSingular := by
  cases lower with
  | true =>
      have hdiagonal : w.diagonal.toList = w.lower.map (·.diagonal) := by
        apply List.ext_getElem <;> simp [Workspace.lower]
      change w.diagonal.toList.all _ = _
      rw [hdiagonal, List.all_map]
      rfl
  | false =>
      have hdiagonal : w.saved.toList = w.upper.map (·.diagonal) := by
        apply List.ext_getElem <;> simp [saved, upper]
      change w.saved.toList.all _ = _
      rw [hdiagonal, List.all_map]
      rfl

/-- A use of a factor answers as the factor does and changes nothing but the scratch vector. -/
theorem use_eq (lower : Bool) (w : Workspace α n) (c : FactorCall α n) :
    (w.use lower c).1 = (w.factor lower).answer c ∧ (w.use lower c).2.system = w.system := by
  cases c with
  | solve v => exact ⟨congrArg FactorAnswer.vector (w.fst_solveFactor lower v), rfl⟩
  | mulRhs out => exact ⟨congrArg FactorAnswer.vector (w.toList_mulFactor lower out), rfl⟩
  | isNonSingular => exact ⟨congrArg FactorAnswer.flag (w.isNonSingular_eq lower), rfl⟩

theorem useEach_eq (lower : Bool) (w : Workspace α n) (uses : List (FactorCall α n)) :
    (w.useEach lower uses).1 = uses.map (w.factor lower).answer ∧
      (w.useEach lower uses).2.system = w.system := by
  induction uses generalizing w with
  | nil => exact ⟨rfl, rfl⟩
  | cons c uses ih =>
      obtain ⟨hanswer, hsystem⟩ := w.use_eq lower c
      obtain ⟨hanswers, hsystems⟩ := ih (w.use lower c).2
      have hfactor : (w.use lower c).2.factor lower = w.factor lower := by
        rw [factor, hsystem, ← factor]
      rw [hfactor] at hanswers
      refine ⟨?_, hsystems.trans hsystem⟩
      rw [useEach, List.map_cons, ← hanswer, ← hanswers]

/-! ## Sequences of calls -/

theorem call_eq (norm : Norm) (w : Workspace α n) (c : SystemCall α n) :
    (w.call norm c).1 = w.system.answer norm c ∧
      ∃ lower, (w.call norm c).2.system = { w.system with lower } := by
  cases c with
  | solve d uses =>
      obtain ⟨hanswers, hsystem⟩ := (w.solve d).2.useEach_eq true uses
      have hfactor : (w.solve d).2.factor true = (w.system.solve d.toList).2.lowerFactor :=
        congrArg DampedSystem.lowerFactor (w.system_solve d)
      rw [hfactor] at hanswers
      refine ⟨?_, _, hsystem.trans (w.system_solve d)⟩
      have hcall : (w.call norm (.solve d uses)).1 =
          .solution (w.solve d).1.toList ((w.solve d).2.useEach true uses).1 := rfl
      rw [hcall, w.toList_solve, hanswers]
      rfl
  | solveUndamped uses =>
      obtain ⟨hanswers, hsystem⟩ := w.solveUndamped.2.useEach_eq false uses
      refine ⟨?_, w.lower, hsystem⟩
      have hcall : (w.call norm (.solveUndamped uses)).1 =
          .solution w.solveUndamped.1.toList (w.solveUndamped.2.useEach false uses).1 := rfl
      rw [hcall, w.toList_solveUndamped, hanswers]
      rfl
  | maxCosine length => exact ⟨congrArg SystemAnswer.cosine (w.fst_maxCosine length), w.lower, rfl⟩
  | imageLength x => exact ⟨congrArg SystemAnswer.length (w.fst_imageLength norm x), w.lower, rfl⟩

end Workspace

namespace DampedSystem

variable [Scalar α]

theorem maxCosine_go_lower (s : DampedSystem α) (lower : List (Line α)) (length largest : α)
    (columns : List (Head α × α)) :
    maxCosine.go { s with lower } length largest columns =
      maxCosine.go s length largest columns := by
  induction columns generalizing largest with
  | nil => rfl
  | cons column columns ih =>
      simp only [maxCosine.go, ih]
      rfl

theorem answer_lower (norm : Norm) (s : DampedSystem α) (lower : List (Line α))
    (c : SystemCall α n) : answer norm { s with lower } c = answer norm s c := by
  cases c with
  | maxCosine length => exact congrArg SystemAnswer.cosine (maxCosine_go_lower s lower length 0 _)
  | _ => rfl

end DampedSystem

namespace Workspace

variable [Scalar α]

/-- A sequence of calls: by induction on it, since one call leaves the next what it needs. -/
theorem run_eq (norm : Norm) (w : Workspace α n) (calls : List (SystemCall α n)) :
    (w.run norm calls).1 = calls.map (w.system.answer norm) ∧
      ∃ lower, (w.run norm calls).2.system = { w.system with lower } := by
  induction calls generalizing w with
  | nil => exact ⟨rfl, w.lower, rfl⟩
  | cons c calls ih =>
      obtain ⟨hanswer, lower, hlower⟩ := w.call_eq norm c
      obtain ⟨hanswers, last, hlast⟩ := ih (w.call norm c).2
      rw [hlower] at hanswers hlast
      refine ⟨?_, last, hlast⟩
      have hsame : DampedSystem.answer norm { w.system with lower } =
          (w.system.answer norm : SystemCall α n → SystemAnswer α) :=
        funext fun c => DampedSystem.answer_lower norm w.system lower c
      have hrun : (w.run norm (c :: calls)).1 =
          (w.call norm c).1 :: ((w.call norm c).2.run norm calls).1 := rfl
      rw [hrun, hanswer, hanswers, hsame, List.map_cons]

/-- Whatever is called in whatever order, and whatever the factors are used for in between, each
call answers as it would be the first one, and its answer is that of the system.  What the storage
holds of the system is never lost. -/
theorem run_answers (norm : Norm) (w : Workspace α n) (calls : List (SystemCall α n)) :
    (w.run norm calls).1 = calls.map (fun c => (w.call norm c).1) ∧
      (w.run norm calls).1 = calls.map (w.system.answer norm) ∧
      ∃ lower, (w.run norm calls).2.system = { w.system with lower } := by
  obtain ⟨hanswers, hsystem⟩ := w.run_eq norm calls
  refine ⟨?_, hanswers, hsystem⟩
  rw [hanswers]
  exact List.map_congr_left fun c _ => (w.call_eq norm c).1.symm

end Workspace

end Minima
