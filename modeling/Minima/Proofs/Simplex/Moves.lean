import Minima.Proofs.Simplex.Falling
import Minima.Proofs.Simplex.Ranking

/-!
# Moves of a simplex

Through all moves of an iteration the values are the costs of the vertices, the
vertices are points that were asked for, and no cost asked for is below all values.
A vertex is replaced by a lower one, or it is another than the lowest and no lower
than that.
-/

namespace Minima.Simplex

variable {σ α : Type} [Scalar α] {P : Problem σ α} {value : Vec α → α}
  {log : σ → List (Vec α)} {grant : σ → σ} {earlier requests : List (Vec α)}
  {s s' : Session σ (Simplex α) α} {i lowest : Nat}

structure Fits (value : Vec α → α) (requests : List (Vec α)) (s : Simplex α) : Prop where
  values_eq : s.values = s.vertices.map value
  one_lt_length : 1 < s.values.length
  requested : ∀ x ∈ s.vertices, x ∈ requests
  covered : ∀ x ∈ requests, ∃ v ∈ s.values, v ≤ value x

def Holds (value : Vec α → α) (log : σ → List (Vec α)) (earlier : List (Vec α))
    (s : Session σ (Simplex α) α) : Prop :=
  ∃ requests, log s.progress.oracle = requests ++ earlier ∧ Fits value requests s.memory

theorem Fits.length_vertices {t : Simplex α} (h : Fits value requests t) :
    t.vertices.length = t.values.length := by
  rw [h.values_eq, List.length_map]

theorem Fits.getD_values {t : Simplex α} (h : Fits value requests t) (hi : i < t.values.length) :
    t.values.getD i 0 = value (t.vertices.getD i []) := by
  have hi' : i < t.vertices.length := by rw [h.length_vertices]; exact hi
  rw [List.getD_eq_getElem _ _ hi, List.getD_eq_getElem _ _ hi']
  simp only [h.values_eq, List.getElem_map]

theorem Fits.defined {t : Simplex α} (costs : P.objective.Costs value log)
    (h : Fits value requests t) : ∀ v ∈ t.values, v ≤ v := by
  rw [h.values_eq]
  simp only [List.forall_mem_map]
  exact fun x _ => costs.defined x

/-- The last point asked for is a vertex, lower than `v` and feasible, and there is no room to
move it, not even to where it is.  No cost from before is below `v`. -/
structure Cornered (P : Problem σ α) (value : Vec α → α) (s : Simplex α) (v : α) (last : Vec α)
    (before : List (Vec α)) : Prop where
  mem_vertices : last ∈ s.vertices
  feasible : P.region.contains last = true
  lower : value last < v
  no_room : reach P.region.contains (s.values.length - 1) s.sum last maxHalvings 2.0 = none
  le : ∀ x ∈ before, v ≤ value x

/-- The value at `i` is the least, or it was until the last request, which left no room. -/
structure Exits (P : Problem σ α) (value : Vec α → α) (i : Nat) (requests : List (Vec α))
    (s : Simplex α) : Prop where
  lt_length : i < s.values.length
  least_or : Least i s.values ∨ ∃ last before, requests = last :: before ∧
    Cornered P value s (s.values.getD i 0) last before

theorem Least.exits {t : Simplex α} (h : Least i t.values) : Exits P value i requests t :=
  ⟨h.lt_length, .inl h⟩

/-! ## Replaced values -/

theorem getD_set_self {β : Type} {values : List β} {v d : β} (hi : i < values.length) :
    (values.set i v).getD i d = v := by
  rw [List.getD_eq_getElem?_getD, List.getElem?_set_self hi, Option.getD_some]

theorem getD_set_ne {values : List α} {v : α} {k : Nat} (h : i ≠ k) :
    (values.set i v).getD k 0 = values.getD k 0 := by
  rw [List.getD_eq_getElem?_getD, List.getElem?_set_ne h, List.getD_eq_getElem?_getD]

theorem exists_le_of_set {values : List α} {v : α} (hdefined : ∀ w ∈ values, w ≤ w)
    (hold : ∃ u ∈ values.set i v, u ≤ values.getD i 0) :
    ∀ w ∈ values, ∃ u ∈ values.set i v, u ≤ w := by
  intro w hw
  obtain ⟨k, hk, rfl⟩ := List.getElem_of_mem hw
  by_cases hki : i = k
  · subst hki
    rwa [List.getD_eq_getElem _ _ hk] at hold
  · refine ⟨values[k], ?_, hdefined _ hw⟩
    rw [List.mem_iff_getElem]
    exact ⟨k, by rw [List.length_set]; exact hk, List.getElem_set_ne hki _⟩

theorem exists_le_of_lowest {values : List α} {v : α} (hlowest : lowest < values.length)
    (hne : i ≠ lowest) (hle : values.getD lowest 0 ≤ values.getD i 0) :
    ∃ u ∈ values.set i v, u ≤ values.getD i 0 := by
  refine ⟨values.getD lowest 0, ?_, hle⟩
  rw [← getD_set_ne hne]
  exact getD_mem (by rwa [List.length_set])

/-! ## Trials -/

structure Tried (P : Problem σ α) (value : Vec α → α) (log : σ → List (Vec α)) (i : Nat)
    (x : Vec α) (s s' : Session σ (Simplex α) α) : Prop where
  feasible : P.region.contains x = true
  log_eq : log s'.progress.oracle = x :: log s.progress.oracle
  rule_eq : s'.rule = s.rule
  memory_eq : s'.memory =
    if value x < s.memory.values.getD i 0 then s.memory.replace i x (value x) else s.memory

theorem Tried.log_append {x : Vec α} (h : Tried P value log i x s s')
    (hlog : log s.progress.oracle = requests ++ earlier) :
    log s'.progress.oracle = (x :: requests) ++ earlier := by
  rw [h.log_eq, hlog, List.cons_append]

def Extrapolated (P : Problem σ α) (value : Vec α → α) (log : σ → List (Vec α)) (i : Nat)
    (factor : α) (s : Session σ (Simplex α) α) :
    Option (Move α) → Session σ (Simplex α) α → Prop
  | none, s' => s' = s ∧ reach P.region.contains (s.memory.values.length - 1) s.memory.sum
      (s.memory.vertices.getD i []) maxHalvings factor = none
  | some move, s' => ∃ x, move.value = value x ∧ Tried P value log i x s s'

theorem reach_eq_some {contains : Vec α → Bool} {n : Nat} {sum v x : Vec α} {halvings : Nat}
    {factor taken : α} (h : reach contains n sum v halvings factor = some (x, taken)) :
    contains x = true ∧ x = trialPoint n sum v taken := by
  induction halvings generalizing factor with
  | zero => contradiction
  | succ halvings ih =>
      simp only [reach] at h
      split at h
      · contradiction
      split at h
      · rename_i hcontains
        cases h
        exact ⟨hcontains, rfl⟩
      · exact ih h

variable [OrderedScalar α]

open OrderedScalar

theorem Fits.set {t t' : Simplex α} (costs : P.objective.Costs value log)
    (h : Fits value requests t) {x : Vec α} (hi : i < t.values.length)
    (hvertices : t'.vertices = t.vertices.set i x) (hvalues : t'.values = t.values.set i (value x))
    (hold : ∃ u ∈ t'.values, u ≤ t.values.getD i 0) :
    Fits value (x :: requests) t' := by
  have hset := exists_le_of_set (h.defined costs) (hvalues ▸ hold)
  exact {
    values_eq := by rw [hvalues, hvertices, h.values_eq, List.map_set]
    one_lt_length := by rw [hvalues, List.length_set]; exact h.one_lt_length
    requested := by
      rw [hvertices]
      intro y hy
      rcases List.mem_or_eq_of_mem_set hy with hy | rfl
      · exact List.mem_cons_of_mem x (h.requested y hy)
      · exact List.mem_cons_self
    covered := by
      rw [hvalues, List.forall_mem_cons]
      constructor
      · exact ⟨value x, List.mem_set hi _, costs.defined x⟩
      · intro y hy
        obtain ⟨v, hv, hvy⟩ := h.covered y hy
        obtain ⟨u, hu, huv⟩ := hset v hv
        exact ⟨u, hu, le_trans huv hvy⟩
  }

theorem getD_set_le {values : List α} {v : α}
    (hlowest : values.getD lowest 0 ≤ values.getD lowest 0) (hi : i < values.length)
    (hlower : v < values.getD i 0) : (values.set i v).getD lowest 0 ≤ values.getD lowest 0 := by
  by_cases hne : i = lowest
  · subst hne
    rw [getD_set_self hi]
    exact le_of_lt hlower
  · rw [getD_set_ne hne]
    exact hlowest

theorem falls_extrapolate (costs : P.objective.Costs value log)
    (grants : P.objective.Grants grant log) (hdefined : ∀ v ∈ s.memory.values, v ≤ v)
    (hi : i < s.memory.values.length) (factor : α) :
    Falls grant (extrapolate P i factor) s (Extrapolated P value log i factor s) := by
  unfold extrapolate
  refine falls_get rfl ?_
  dsimp only
  split
  · rename_i hreach
    exact falls_pure ⟨rfl, hreach⟩
  · rename_i x taken hreach
    refine falls_bind (falls_value costs grants x s) ?_
    rintro v s₁ ⟨rfl, hlog, hrule, hmemory⟩
    have hfeasible := (reach_eq_some hreach).1
    refine falls_ite (fun hlower => ?_) (fun hnot => ?_)
    · refine falls_bind (falls_remember (.inr ?_)) ?_
      · rw [hmemory]
        exact exists_le_of_set hdefined ⟨value x, List.mem_set hi _, le_of_lt hlower⟩
      · rintro - s₂ rfl
        exact falls_pure ⟨x, rfl, hfeasible, hlog, hrule, by rw [if_pos hlower, ← hmemory]⟩
    · exact falls_pure ⟨x, rfl, hfeasible, hlog, hrule, by rw [if_neg hnot, hmemory]⟩

theorem Fits.tried {x : Vec α} (costs : P.objective.Costs value log)
    (h : Fits value requests s.memory) (htried : Tried P value log i x s s')
    (hi : i < s.memory.values.length) : Fits value (x :: requests) s'.memory := by
  rw [htried.memory_eq]
  split
  · rename_i hlower
    exact h.set costs hi rfl rfl ⟨value x, List.mem_set hi _, le_of_lt hlower⟩
  · rename_i hnot
    have hle : s.memory.values.getD i 0 ≤ value x :=
      le_of_not_lt (costs.defined x) (h.defined costs _ (getD_mem hi)) hnot
    exact { h with
      requested := fun y hy => List.mem_cons_of_mem x (h.requested y hy)
      covered := List.forall_mem_cons.mpr ⟨⟨_, getD_mem hi, hle⟩, h.covered⟩ }

/-! ## Shrinking -/

theorem falls_shrinkVertex (costs : P.objective.Costs value log)
    (grants : P.objective.Grants grant log) (h : Holds value log earlier s)
    (hlowest : lowest < s.memory.values.length) (hi : i < s.memory.values.length)
    (hle : s.memory.values.getD lowest 0 ≤ s.memory.values.getD i 0) :
    Falls grant (shrinkVertex P lowest i) s (fun _ s' => Holds value log earlier s' ∧
      s'.rule = s.rule ∧ s'.memory.values.length = s.memory.values.length ∧
      ∀ k, k ≠ i ∨ k = lowest → s'.memory.values.getD k 0 = s.memory.values.getD k 0) := by
  obtain ⟨requests, hlog, hfits⟩ := h
  unfold shrinkVertex
  refine falls_ite (fun hne => ?_) (fun _ => ?_)
  · refine falls_get rfl ?_
    dsimp only
    generalize Vec.scale (0.5 : α) _ = x
    have hmatch : ∃ u ∈ s.memory.values.set i (value x), u ≤ s.memory.values.getD i 0 :=
      exists_le_of_lowest hlowest hne hle
    have hdefined := hfits.defined costs
    refine falls_bind (falls_remember (.refl _)) ?_
    rintro - s₁ rfl
    refine falls_bind (falls_value costs grants x _) ?_
    rintro v s₂ ⟨rfl, hlog₂, hrule, hmemory⟩
    dsimp only at hlog₂ hrule
    refine (falls_remember (.inr ?_)).mono ?_
    · rw [hmemory]
      exact exists_le_of_set hdefined hmatch
    rintro - s₃ rfl
    refine ⟨⟨x :: requests, ?_, ?_⟩, hrule, ?_, ?_⟩
    · rw [hlog₂, hlog, List.cons_append]
    · exact hfits.set costs hi (by rw [hmemory]) (by rw [hmemory]) (by rw [hmemory]; exact hmatch)
    · rw [hmemory, List.length_set]
    · intro k hk
      rw [hmemory]
      exact getD_set_ne (hk.elim Ne.symm fun hk => hk ▸ hne)
  · exact falls_pure ⟨⟨requests, hlog, hfits⟩, rfl, rfl, fun _ _ => rfl⟩

theorem falls_forM_shrinkVertex (costs : P.objective.Costs value log)
    (grants : P.objective.Grants grant log) (rest : List Nat) (hnodup : rest.Nodup)
    (h : Holds value log earlier s) (hlowest : lowest < s.memory.values.length)
    (hrest : ∀ i ∈ rest, i < s.memory.values.length ∧
      s.memory.values.getD lowest 0 ≤ s.memory.values.getD i 0) :
    Falls grant (rest.forM (shrinkVertex P lowest)) s
      (fun _ s' => Holds value log earlier s' ∧ s'.rule = s.rule) := by
  induction rest generalizing s with
  | nil => exact falls_pure ⟨h, rfl⟩
  | cons i rest ih =>
      obtain ⟨hi, hle⟩ := hrest i List.mem_cons_self
      obtain ⟨hnot, hnodup⟩ := List.nodup_cons.mp hnodup
      refine falls_bind (falls_shrinkVertex costs grants h hlowest hi hle) ?_
      rintro - s₁ ⟨h₁, hrule, hlength, hsame⟩
      refine (ih hnodup h₁ (by rwa [hlength]) fun j hj => ?_).mono fun _ s₂ h₂ =>
        ⟨h₂.1, h₂.2.trans hrule⟩
      -- No position occurs twice, so those to come still have the values they had.
      obtain ⟨hj', hle'⟩ := hrest j (List.mem_cons_of_mem i hj)
      have hne : j ≠ i := fun heq => hnot (heq ▸ hj)
      rw [hlength, hsame lowest (.inr rfl), hsame j (.inl hne)]
      exact ⟨hj', hle'⟩

theorem falls_shrink (costs : P.objective.Costs value log)
    (grants : P.objective.Grants grant log) (h : Holds value log earlier s)
    (hleast : Least lowest s.memory.values) :
    Falls grant (shrink P lowest) s
      (fun _ s' => Holds value log earlier s' ∧ s'.rule = s.rule) := by
  unfold shrink
  refine falls_get rfl (falls_forM_shrinkVertex costs grants _ List.nodup_range h
    hleast.lt_length fun i hi => ?_)
  obtain ⟨requests, -, hfits⟩ := h
  rw [List.mem_range, hfits.length_vertices] at hi
  exact ⟨hi, hleast.le (getD_mem hi)⟩

/-! ## One iteration -/

def Moved (P : Problem σ α) (value : Vec α → α) (log : σ → List (Vec α))
    (earlier : List (Vec α)) (lowest : Nat) (rule : StoppingRule α) (room : Bool)
    (s : Session σ (Simplex α) α) : Prop :=
  s.rule = rule ∧ ∃ requests, log s.progress.oracle = requests ++ earlier ∧
    Fits value requests s.memory ∧ (room = false → Exits P value lowest requests s.memory)

theorem falls_contract {r : Ranking} (costs : P.objective.Costs value log)
    (grants : P.objective.Grants grant log) (h : Holds value log earlier s)
    (hleast : Least r.lowest s.memory.values) (hhighest : r.highest < s.memory.values.length) :
    Falls grant (contract P r) s (Moved P value log earlier r.lowest s.rule) := by
  obtain ⟨requests, hlog, hfits⟩ := h
  unfold contract
  refine falls_get rfl (falls_bind
    (falls_extrapolate costs grants (hfits.defined costs) hhighest 0.5) ?_)
  rintro (_ | contracted) s₁ hs₁
  · obtain ⟨rfl, -⟩ := hs₁
    exact falls_pure ⟨rfl, requests, hlog, hfits, fun _ => hleast.exits⟩
  · obtain ⟨x, hvalue, htried⟩ := hs₁
    have hfits₁ := hfits.tried costs htried hhighest
    have hlog₁ := htried.log_append hlog
    refine falls_ite (fun hnot => ?_) (fun _ => ?_)
    · rw [hvalue] at hnot
      have hmemory : s₁.memory = s.memory := by
        rw [htried.memory_eq, if_neg fun hlower => not_le_of_lt hlower hnot]
      refine falls_bind (falls_shrink costs grants ⟨_, hlog₁, hfits₁⟩ (by rwa [hmemory])) ?_
      rintro - s₂ ⟨⟨requests₂, hlog₂, hfits₂⟩, hrule₂⟩
      exact falls_pure ⟨hrule₂.trans htried.rule_eq, requests₂, hlog₂, hfits₂, nofun⟩
    · exact falls_pure ⟨htried.rule_eq, _, hlog₁, hfits₁, nofun⟩

theorem Tried.least_of_nextHighest_le {r : Ranking} {x : Vec α}
    (hranks : Ranks s.memory.values s.memory.values.length r)
    (htried : Tried P value log r.highest x s s')
    (hle : s'.memory.values.getD r.nextHighest 0 ≤ value x) :
    Least r.lowest s'.memory.values := by
  have hleast := hranks.least
  rw [htried.memory_eq] at hle ⊢
  split at hle
  · rename_i hlower
    rw [replace, getD_set_ne hranks.nextHighest_ne.symm] at hle
    have hx : s.memory.values.getD r.lowest 0 ≤ value x :=
      le_trans (hleast.le (getD_mem hranks.nextHighest_lt)) hle
    have hne : r.highest ≠ r.lowest := fun heq => not_le_of_lt hlower (heq ▸ hx)
    rw [if_pos hlower, replace]
    refine ⟨by rw [List.length_set]; exact hleast.lt_length, fun {w} hw => ?_⟩
    rw [getD_set_ne hne]
    rcases List.mem_or_eq_of_mem_set hw with hw | rfl
    · exact hleast.le hw
    · exact hx
  · rename_i hnot
    rw [if_neg hnot]
    exact hleast

/-- After a reflection with no room to expand it the lowest value is still the least, or the
reflected point is lower and cornered. -/
theorem Tried.exits {r : Ranking} {x : Vec α} (costs : P.objective.Costs value log)
    (hfits : Fits value requests s.memory)
    (hranks : Ranks s.memory.values s.memory.values.length r)
    (htried : Tried P value log r.highest x s s')
    (hroom : reach P.region.contains (s'.memory.values.length - 1) s'.memory.sum
      (s'.memory.vertices.getD r.highest []) maxHalvings 2.0 = none) :
    Exits P value r.lowest (x :: requests) s'.memory := by
  have hleast := hranks.least
  have hfits' := hfits.tried costs htried hranks.highest_lt
  by_cases hlower : value x < s.memory.values.getD r.highest 0
  · have hmemory : s'.memory = s.memory.replace r.highest x (value x) := by
      rw [htried.memory_eq, if_pos hlower]
    have hvalues : s'.memory.values = s.memory.values.set r.highest (value x) := by
      rw [hmemory, replace]
    have hlength : r.lowest < s'.memory.values.length := by
      rw [hvalues, List.length_set]
      exact hranks.lowest_lt
    have hvertices : r.highest < s.memory.vertices.length := by
      rw [hfits.length_vertices]
      exact hranks.highest_lt
    -- Whatever was reflected, the value at the lowest position did not rise.
    have hlow : s'.memory.values.getD r.lowest 0 ≤ s.memory.values.getD r.lowest 0 := by
      rw [hvalues]
      exact getD_set_le (hleast.le (getD_mem hleast.lt_length)) hranks.highest_lt hlower
    refine ⟨hlength, ?_⟩
    by_cases hx : value x < s'.memory.values.getD r.lowest 0
    · refine .inr ⟨x, requests, rfl, ?_, htried.feasible, hx, ?_, fun y hy => ?_⟩
      · rw [hmemory, replace]
        exact List.mem_set hvertices x
      · rw [hmemory, replace] at hroom ⊢
        rwa [getD_set_self hvertices] at hroom
      · obtain ⟨w, hw, hwy⟩ := hfits.covered y hy
        exact le_trans hlow (le_trans (hleast.le hw) hwy)
    · refine .inl ⟨hlength, fun {w} hw => ?_⟩
      rw [hvalues] at hw
      rcases List.mem_or_eq_of_mem_set hw with hw | rfl
      · exact le_trans hlow (hleast.le hw)
      · exact le_of_not_lt (costs.defined x) (hfits'.defined costs _ (getD_mem hlength)) hx
  · rw [htried.memory_eq, if_neg hlower]
    exact hleast.exits

theorem falls_moves {r : Ranking} (costs : P.objective.Costs value log)
    (grants : P.objective.Grants grant log) (h : Holds value log earlier s)
    (hranks : Ranks s.memory.values s.memory.values.length r) :
    Falls grant (moves P r) s (Moved P value log earlier r.lowest s.rule) := by
  obtain ⟨requests, hlog, hfits⟩ := h
  unfold moves
  refine falls_bind
    (falls_extrapolate costs grants (hfits.defined costs) hranks.highest_lt (-1)) ?_
  rintro (_ | reflected) s₁ hs₁
  · obtain ⟨rfl, -⟩ := hs₁
    exact falls_pure ⟨rfl, requests, hlog, hfits, fun _ => hranks.least.exits⟩
  · obtain ⟨x, hvalue, htried⟩ := hs₁
    have hfits₁ := hfits.tried costs htried hranks.highest_lt
    have hlog₁ := htried.log_append hlog
    have hlength : s₁.memory.values.length = s.memory.values.length := by
      rw [htried.memory_eq]
      split
      · exact List.length_set
      · rfl
    have hhighest : r.highest < s₁.memory.values.length := by
      rw [hlength]
      exact hranks.highest_lt
    refine falls_get rfl ?_
    refine falls_ite (fun _ => ?_) (fun _ => falls_ite (fun hcontract => ?_) (fun _ => ?_))
    · refine falls_bind
        (falls_extrapolate costs grants (hfits₁.defined costs) hhighest 2.0) ?_
      rintro (_ | expanded) s₂ hs₂
      · obtain ⟨rfl, hroom⟩ := hs₂
        exact falls_pure ⟨htried.rule_eq, _, hlog₁, hfits₁,
          fun _ => htried.exits costs hfits hranks hroom⟩
      · obtain ⟨y, -, hexpanded⟩ := hs₂
        exact falls_pure ⟨hexpanded.rule_eq.trans htried.rule_eq, y :: x :: requests,
          hexpanded.log_append hlog₁, hfits₁.tried costs hexpanded hhighest, nofun⟩
    · rw [hvalue] at hcontract
      rw [← htried.rule_eq]
      exact falls_contract costs grants ⟨_, hlog₁, hfits₁⟩
        (htried.least_of_nextHighest_le hranks hcontract) hhighest
    · exact falls_pure ⟨htried.rule_eq, _, hlog₁, hfits₁, nofun⟩

end Minima.Simplex
