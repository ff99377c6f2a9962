import Mathlib.Algebra.BigOperators.Group.List.Basic
import Minima.Proofs.Exact.Ordered
import Minima.Proofs.Exact.Vec
import Minima.Proofs.LineSearch.Trials
import Minima.Proofs.Simplex.Feasible
import Minima.Proofs.Simplex.Outcome

/-!
# Moves along the line through the centroid

The sum of the vertices is rebuilt by the ranking and corrected for each vertex that moves.  In
exact arithmetic a correction gives the sum that rebuilding would give, so that whichever move is
made, its trial points lie on the line through the vertex and the centroid of the others.
-/

namespace Minima.Simplex

/-! ## Sums of vertices -/

structure Spans {α : Type} (n : Nat) (vertices : List (Vec α)) : Prop where
  length_eq : vertices.length = n + 1
  length_mem : ∀ v ∈ vertices, v.length = n

noncomputable def centroid (n : Nat) (points : List (Vec ℝ)) : Vec ℝ :=
  Vec.divide (sumOf n points) (points.length : ℝ)

variable {n i : Nat} {vertices : List (Vec ℝ)} {sum v x : Vec ℝ}

theorem Spans.length_getD (h : Spans n vertices) (hi : i < n + 1) :
    (vertices.getD i []).length = n :=
  h.length_mem _ (getD_mem (h.length_eq.symm ▸ hi))

theorem Spans.set (h : Spans n vertices) (hx : i < n + 1 → x.length = n) :
    Spans n (vertices.set i x) where
  length_eq := by rw [List.length_set, h.length_eq]
  length_mem v hv := by
    by_cases hi : i < n + 1
    · rcases List.mem_or_eq_of_mem_set hv with hv | rfl
      · exact h.length_mem v hv
      · exact hx hi
    · rw [List.set_eq_of_length_le (by rw [h.length_eq]; omega)] at hv
      exact h.length_mem v hv

theorem sumOf_eq_ofFn (h : ∀ v ∈ vertices, v.length = n) :
    sumOf n vertices = List.ofFn (vertices.map (Vec.toFn n)).sum := by
  have hfold (u : Fin n → ℝ) : vertices.foldl Vec.add (List.ofFn u) =
      List.ofFn (u + (vertices.map (Vec.toFn n)).sum) := by
    induction vertices generalizing u with
    | nil => simp
    | cons v vertices ih =>
        obtain ⟨hv, hrest⟩ := List.forall_mem_cons.mp h
        rw [List.map_cons, List.sum_cons, ← add_assoc, ← ih hrest, ← Vec.add_ofFn,
          Vec.ofFn_toFn hv, List.foldl_cons]
  rw [sumOf, Vec.zeros_eq_ofFn, hfold]
  exact congrArg List.ofFn (zero_add _)

theorem length_sumOf (h : ∀ v ∈ vertices, v.length = n) : (sumOf n vertices).length = n := by
  rw [sumOf_eq_ofFn h, List.length_ofFn]

theorem sumOf_set (h : Spans n vertices) (hi : i < n + 1) (hx : x.length = n) :
    sumOf n (vertices.set i x) =
      Vec.add (sumOf n vertices) (Vec.sub x (vertices.getD i [])) := by
  have hlength : i < vertices.length := h.length_eq.symm ▸ hi
  have hlength' : i < (vertices.map (Vec.toFn n)).length := by rwa [List.length_map]
  have hv := h.length_getD hi
  rw [List.getD_eq_getElem _ _ hlength] at hv ⊢
  rw [sumOf_eq_ofFn (h.set fun _ => hx).length_mem, sumOf_eq_ofFn h.length_mem, List.map_set,
    List.sum_set', dif_pos hlength', List.getElem_map]
  nth_rewrite 2 [← Vec.ofFn_toFn hx]
  nth_rewrite 2 [← Vec.ofFn_toFn hv]
  rw [Vec.sub_ofFn, Vec.add_ofFn, sub_eq_neg_add]

/-- With the sum of all vertices the trial points are on the line from the centroid of the others
through the vertex. -/
theorem trialPoint_sumOf (h : Spans n vertices) (hn : 0 < n) (hi : i < n + 1) (factor : ℝ) :
    let v := vertices.getD i []
    let c := centroid n (vertices.eraseIdx i)
    trialPoint n (sumOf n vertices) v factor = Region.along c (Vec.sub v c) factor := by
  have hlength : i < vertices.length := h.length_eq.symm ▸ hi
  have hv := h.length_getD hi
  have hothers : ∀ v ∈ vertices.eraseIdx i, v.length = n :=
    fun v hv => h.length_mem v (List.mem_of_mem_eraseIdx hv)
  have hsum : (vertices.map (Vec.toFn n)).sum = Vec.toFn n (vertices.getD i []) +
      ((vertices.eraseIdx i).map (Vec.toFn n)).sum := by
    have hlength' : i < (vertices.map (Vec.toFn n)).length := by rwa [List.length_map]
    rw [List.getD_eq_getElem _ _ hlength, ← List.eraseIdx_map,
      ← List.CommMonoid.add_sum_eraseIdx hlength', List.getElem_map]
  have hcount : (((vertices.eraseIdx i).length : ℕ) : ℝ) = n := by
    rw [List.length_eraseIdx_of_lt hlength, h.length_eq, Nat.add_sub_cancel]
  have hn' : (n : ℝ) ≠ 0 := Nat.cast_ne_zero.mpr hn.ne'
  dsimp only
  rw [trialPoint, centroid, Region.along, sumOf_eq_ofFn h.length_mem, sumOf_eq_ofFn hothers, hsum,
    hcount, ← Vec.ofFn_toFn hv]
  simp only [Vec.scale_ofFn, Vec.divide_ofFn, Vec.sub_ofFn, Vec.add_ofFn, Vec.toFn_ofFn]
  congr 1
  funext j
  simp only [Pi.add_apply, Pi.sub_apply, Pi.smul_apply, smul_eq_mul]
  field_simp
  ring

/-- The sum is that of the vertices, and all trial points for the vertex at `i` are on its line
through the centroid of the `n` others. -/
structure Centered (n i : Nat) (vertices : List (Vec ℝ)) (sum : Vec ℝ) : Prop where
  spans : Spans n vertices
  place_lt : i < n + 1
  sum_eq : sum = sumOf n vertices
  trialPoint_eq (factor : ℝ) :
    trialPoint n sum (vertices.getD i []) factor =
      Region.along (centroid n (vertices.eraseIdx i))
        (Vec.sub (vertices.getD i []) (centroid n (vertices.eraseIdx i))) factor

theorem Spans.centered (h : Spans n vertices) (hn : 0 < n) (hi : i < n + 1)
    (hsum : sum = sumOf n vertices) : Centered n i vertices sum :=
  ⟨h, hi, hsum, fun factor => hsum ▸ trialPoint_sumOf h hn hi factor⟩

/-! ## Moves -/

structure Shaped (n : Nat) (t : Simplex ℝ) : Prop where
  spans : Spans n t.vertices
  length_values : t.values.length = n + 1

structure Summed (n : Nat) (t : Simplex ℝ) : Prop extends Shaped n t where
  sum_eq : t.sum = sumOf n t.vertices

variable {σ : Type} {P : Problem σ ℝ} {highest lowest iteration : Nat} {r : Ranking}
  {origin s s' : Session σ (Simplex ℝ) ℝ} {t : Simplex ℝ}

theorem Summed.length_trialPoint (h : Summed n t) (hi : i < n + 1) (factor : ℝ) :
    (trialPoint n t.sum (t.vertices.getD i []) factor).length = n := by
  simp only [trialPoint, Vec.sub, Vec.scale, List.length_zipWith, List.length_map, h.sum_eq,
    length_sumOf h.spans.length_mem, h.spans.length_getD hi, Nat.min_self]

theorem Summed.replace (h : Summed n t) (hi : i < n + 1) (hx : x.length = n) (value : ℝ) :
    Summed n (t.replace i x value) where
  spans := h.spans.set fun _ => hx
  length_values := List.length_set.trans h.length_values
  sum_eq := by rw [Simplex.replace, h.sum_eq, sumOf_set h.spans hi hx]

theorem upholds_extrapolate_summed (hhighest : highest < n + 1) (factor : ℝ) :
    Upholds (fun s => Summed n s.memory) (fun _ _ => True) (extrapolate P highest factor) := by
  intro s h
  unfold extrapolate
  rw [leads_bind, leads_get]
  dsimp only
  rw [h.length_values, Nat.add_sub_cancel]
  split
  · exact h
  · rename_i x taken hreach
    have hx : x.length = n := by
      rw [(reach_eq_some hreach).2]
      exact h.length_trialPoint hhighest taken
    refine (leads_work_memory _ s).bind fun value s₁ hmemory => ?_
    simp only [leads_bind, leads_ite, leads_remember, leads_pure, hmemory]
    exact ⟨fun _ => h.replace hhighest hx value, fun _ => h⟩

theorem upholds_shrinkVertex_shaped (hlowest : lowest < n + 1) (i : Nat) :
    Upholds (fun s => Shaped n s.memory) (fun _ _ => True) (shrinkVertex P lowest i) := by
  intro s h
  unfold shrinkVertex
  rw [leads_ite]
  refine ⟨fun _ => ?_, fun _ => h⟩
  simp only [leads_bind, leads_get, leads_remember]
  refine (leads_work_memory _ _).imp fun value s₁ hmemory => ?_
  rw [hmemory]
  refine ⟨h.spans.set fun hi => ?_, List.length_set.trans h.length_values⟩
  simp only [Vec.scale, Vec.add, List.length_zipWith, List.length_map, h.spans.length_getD hi,
    h.spans.length_getD hlowest, Nat.min_self]

theorem leads_contract_shaped (hhighest : r.highest < n + 1) (hlowest : r.lowest < n + 1)
    (h : Summed n s.memory) :
    Leads (contract P r) s (fun _ s' => Shaped n s'.memory) (fun _ _ => True) := by
  unfold contract
  rw [leads_bind, leads_get]
  refine (upholds_extrapolate_summed hhighest _ s h).bind fun made s₁ h₁ => ?_
  cases made with
  | none => exact h₁.toShaped
  | some contracted =>
      refine leads_ite.mpr ⟨fun _ => ?_, fun _ => h₁.toShaped⟩
      rw [leads_bind]
      unfold shrink
      exact upholds_get.bind
        (fun _ => upholds_forM (upholds_shrinkVertex_shaped hlowest)) s₁ h₁.toShaped

theorem leads_moves_shaped (hhighest : r.highest < n + 1) (hlowest : r.lowest < n + 1)
    (h : Summed n s.memory) :
    Leads (moves P r) s (fun _ s' => Shaped n s'.memory) (fun _ _ => True) := by
  unfold moves
  refine (upholds_extrapolate_summed hhighest _ s h).bind fun made s₁ h₁ => ?_
  cases made with
  | none => exact h₁.toShaped
  | some reflected =>
      rw [leads_bind, leads_get, leads_ite]
      refine ⟨fun _ => ?_, fun _ => leads_ite.mpr ⟨fun _ => ?_, fun _ => h₁.toShaped⟩⟩
      · exact (upholds_extrapolate_summed hhighest _ s₁ h₁).bind fun _ _ h₂ => h₂.toShaped
      · exact leads_contract_shaped hhighest hlowest h₁

/-! ## Iterations -/

theorem leads_rank_summed (h : Shaped n s.memory) (hn : 0 < n) :
    Leads (rank n) s
      (fun r s' => Summed n s'.memory ∧ r.highest < n + 1 ∧ r.lowest < n + 1)
      (fun _ _ => False) := by
  unfold rank
  simp only [leads_bind, leads_remember, leads_get, leads_pure]
  have hranks := ranks_ranking (fun v _ => le_refl v)
    (h.length_values ▸ Nat.succ_lt_succ hn : 1 < s.memory.values.length)
  rw [← h.length_values]
  exact ⟨⟨⟨h.spans, h.length_values⟩, rfl⟩, hranks.highest_lt, hranks.lowest_lt⟩

theorem leads_pass_shaped (h : Shaped n s.memory) (hn : 0 < n) (iteration : Nat) :
    Leads (pass P n iteration) s (fun ended s' => ended = none → Shaped n s'.memory)
      (fun _ _ => True) := by
  unfold pass
  refine ((leads_rank_summed h hn).mono (fun _ _ h => h) fun _ _ h => h.elim).bind ?_
  rintro r s₁ ⟨hsummed, hhighest, hlowest⟩
  refine leads_finished.bind ?_
  rintro stops s₂ ⟨hmemory, -, -⟩
  rw [leads_ite]
  constructor
  · intro _
    rw [leads_bind]
    exact (leads_true _ _).imp fun _ _ _ => nofun
  · intro _
    refine (leads_moves_shaped hhighest hlowest (hmemory ▸ hsummed)).bind fun room s₃ h₃ => ?_
    refine leads_ite.mpr ⟨fun _ _ => h₃, fun _ => ?_⟩
    exact (leads_true _ _).bind fun _ _ _ => (leads_true _ _).bind fun _ _ _ => nofun

/-! ## Runs -/

def MovesFrom {α : Type} [Scalar α] (P : Problem σ α) (origin : Session σ (Simplex α) α)
    (r : Ranking) (t : Session σ (Simplex α) α) : Prop :=
  ∃ iteration s s₁, Reaches P origin iteration s ∧
    rank origin.progress.point.length s = (.ok r, s₁) ∧
    finished origin.progress.point.length iteration s₁ = (.ok false, t)

/-- The sessions in which a run from `origin` tries to move a vertex, with the ranking and the
factor.  The highest vertex is reflected first, and may be moved once more after that. -/
inductive Calls {α : Type} [Scalar α] (P : Problem σ α) (origin : Session σ (Simplex α) α) :
    Ranking → α → Session σ (Simplex α) α → Prop
  | reflection {r : Ranking} {s : Session σ (Simplex α) α} :
      MovesFrom P origin r s → Calls P origin r (-1) s
  | expansion {r : Ranking} {s s' : Session σ (Simplex α) α} {reflected : Move α} :
      MovesFrom P origin r s → extrapolate P r.highest (-1) s = (.ok (some reflected), s') →
        (reflected.value ≤ s'.memory.values.getD r.lowest 0 ∧
          Scalar.same reflected.factor (-1)) →
        Calls P origin r 2.0 s'
  | contraction {r : Ranking} {s s' : Session σ (Simplex α) α} {reflected : Move α} :
      MovesFrom P origin r s → extrapolate P r.highest (-1) s = (.ok (some reflected), s') →
        ¬ (reflected.value ≤ s'.memory.values.getD r.lowest 0 ∧
          Scalar.same reflected.factor (-1)) →
        s'.memory.values.getD r.nextHighest 0 ≤ reflected.value → Calls P origin r 0.5 s'

theorem initialVertices_spans {region : Region ℝ} {lambda : ℝ}
    (h : initialVertices region x lambda = .ok vertices) : Spans x.length vertices := by
  have hmoved (i : Nat) (taken : ℝ) (y : Vec ℝ)
      (hmove : region.move x (Vec.unit x.length i) lambda = .ok (taken, y)) :
      y.length = x.length := by
    rw [Region.along_of_move hmove]
    simp [Region.along, Vec.add, Vec.scale, Vec.unit]
  obtain ⟨hlength, hall⟩ := forall_initialVertices (p := fun y => y.length = x.length) rfl hmoved h
  exact ⟨hlength, hall⟩

theorem leads_evaluateVertices_lengths (rest : List (Vec ℝ)) (s : Session σ (Simplex ℝ) ℝ) :
    Leads (evaluateVertices P rest) s
      (fun _ s' => s'.memory.vertices = s.memory.vertices ∧
        s'.memory.values.length = s.memory.values.length + rest.length) (fun _ _ => True) := by
  induction rest generalizing s with
  | nil => exact ⟨rfl, rfl⟩
  | cons x rest ih =>
      have hnext (value : ℝ) (s₁ : Session σ (Simplex ℝ) ℝ) (hmemory : s₁.memory = s.memory) :
          Leads (do
            Run.remember fun t => { t with values := t.values ++ [value] }
            evaluateVertices P rest) s₁
            (fun _ s' => s'.memory.vertices = s.memory.vertices ∧
              s'.memory.values.length = s.memory.values.length + (x :: rest).length)
            (fun _ _ => True) := by
        rw [leads_bind, leads_remember, hmemory]
        refine (ih _).imp ?_
        rintro - s₂ ⟨hvertices, hvalues⟩
        refine ⟨hvertices, hvalues.trans ?_⟩
        rw [List.length_append, List.length_singleton, List.length_cons, Nat.add_assoc,
          Nat.add_comm 1]
      exact leads_ite.mpr ⟨fun _ => (leads_work_memory _ s).bind hnext, fun _ => hnext _ s rfl⟩

theorem Reaches.shaped (h : Reaches P origin iteration s) :
    Shaped origin.progress.point.length s.memory ∧ 0 < origin.progress.point.length := by
  induction h with
  | start hlaid hevaluated =>
      rw [start_apply] at hlaid
      cases hvertices : checkedVertices P.region origin.progress.point origin.memory.lambda with
      | error e =>
          rw [hvertices] at hlaid
          cases hlaid
      | ok vertices =>
          rw [hvertices] at hlaid
          cases hlaid
          obtain ⟨-, hpos, hinitial⟩ := initialVertices_of_checkedVertices hvertices
          have hspans := initialVertices_spans hinitial
          obtain ⟨hsame, hlength⟩ := (leads_evaluateVertices_lengths _ _).of_ok hevaluated
          refine ⟨⟨?_, ?_⟩, hpos⟩
          · rw [hsame]
            exact hspans
          · rw [hlength, hspans.length_eq]
            exact Nat.zero_add _
  | pass _ hpass ih =>
      obtain ⟨hshaped, hpos⟩ := ih
      exact ⟨(leads_pass_shaped hshaped hpos _).of_ok hpass rfl, hpos⟩

theorem MovesFrom.summed (h : MovesFrom P origin r s) :
    Summed origin.progress.point.length s.memory ∧
      r.highest < origin.progress.point.length + 1 ∧ 0 < origin.progress.point.length := by
  obtain ⟨iteration, s₀, s₁, hreaches, hranked, hfinished⟩ := h
  obtain ⟨hshaped, hpos⟩ := hreaches.shaped
  obtain ⟨hsummed, hhighest, -⟩ := (leads_rank_summed hshaped hpos).of_ok hranked
  have hleads : Leads (finished origin.progress.point.length iteration) s₁ _ fun _ _ => True :=
    leads_finished
  obtain ⟨hmemory, -, -⟩ := hleads.of_ok hfinished
  exact ⟨hmemory ▸ hsummed, hhighest, hpos⟩

theorem Calls.centered {factor : ℝ} (h : Calls P origin r factor s) :
    Centered (s.memory.values.length - 1) r.highest s.memory.vertices s.memory.sum := by
  obtain ⟨hsummed, hhighest, hpos⟩ : Summed origin.progress.point.length s.memory ∧
      r.highest < origin.progress.point.length + 1 ∧ 0 < origin.progress.point.length := by
    cases h with
    | reflection hmoves => exact hmoves.summed
    | expansion hmoves hmade _ =>
        obtain ⟨hsummed, hhighest, hpos⟩ := hmoves.summed
        exact ⟨(upholds_extrapolate_summed hhighest _ _ hsummed).of_ok hmade, hhighest, hpos⟩
    | contraction hmoves hmade _ _ =>
        obtain ⟨hsummed, hhighest, hpos⟩ := hmoves.summed
        exact ⟨(upholds_extrapolate_summed hhighest _ _ hsummed).of_ok hmade, hhighest, hpos⟩
  rw [hsummed.length_values, Nat.add_sub_cancel]
  exact hsummed.spans.centered hpos hhighest hsummed.sum_eq

end Minima.Simplex
