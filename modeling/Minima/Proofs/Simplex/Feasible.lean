import Minima.Proofs.Simplex.Lowest

/-!
# Where a simplex asks for costs

The initial vertices and all trial points are tested before they are asked for.  The
points of a shrink are not: each of them halves the way between two points that were
asked for before.  So a run stays in every region that is closed under halving, and
may leave any other.  A box is not closed where the sum of two of its points overflows.
-/

namespace Minima.Simplex

open OrderedScalar

variable {σ α : Type} [Scalar α] {P : Problem σ α} {log : σ → List (Vec α)}
  {earlier requests : List (Vec α)} {contains : Vec α → Bool} {n i lowest : Nat}
  {s : Session σ (Simplex α) α} {t : Simplex α}

def midpoint (u v : Vec α) : Vec α := Vec.scale 0.5 (Vec.add u v)

/-! ## Requests -/

/-- Requests, the last one first: each is inside, or halves the way between two before it. -/
inductive Halving (contains : Vec α → Bool) : List (Vec α) → Prop
  | start : Halving contains []
  | inside {x : Vec α} {requests : List (Vec α)} :
      contains x = true → Halving contains requests → Halving contains (x :: requests)
  | halfway {u v : Vec α} {requests : List (Vec α)} :
      u ∈ requests → v ∈ requests → Halving contains requests →
        Halving contains (midpoint u v :: requests)

theorem Halving.append (h : Halving contains requests) {rest : List (Vec α)}
    (hrest : ∀ x ∈ rest, contains x = true) : Halving contains (rest ++ requests) := by
  induction rest with
  | nil => exact h
  | cons x rest ih =>
      rw [List.forall_mem_cons] at hrest
      exact .inside hrest.1 (ih hrest.2)

theorem Halving.contains_of_closed (h : Halving contains requests)
    (closed : ∀ u v, contains u = true → contains v = true → contains (midpoint u v) = true) :
    ∀ x ∈ requests, contains x = true := by
  induction h with
  | start => nofun
  | inside hx _ ih => exact List.forall_mem_cons.mpr ⟨hx, ih⟩
  | halfway hu hv _ ih => exact List.forall_mem_cons.mpr ⟨closed _ _ (ih _ hu) (ih _ hv), ih⟩

def Asks (P : Problem σ α) (log : σ → List (Vec α)) (earlier : List (Vec α))
    (s : Session σ (Simplex α) α) : Prop :=
  ∃ requests, log s.progress.oracle = requests ++ earlier ∧ Halving P.region.contains requests

/-! ## Simplices -/

structure Known (contains : Vec α → Bool) (n : Nat) (requests : List (Vec α)) (t : Simplex α) :
    Prop where
  halving : Halving contains requests
  length_vertices : t.vertices.length = n
  length_values : t.values.length = n
  mem_requests : ∀ x ∈ t.vertices, x ∈ requests

def Knows (P : Problem σ α) (log : σ → List (Vec α)) (earlier : List (Vec α)) (n : Nat)
    (s : Session σ (Simplex α) α) : Prop :=
  ∃ requests, log s.progress.oracle = requests ++ earlier ∧
    Known P.region.contains n requests s.memory

theorem Knows.asks (h : Knows P log earlier n s) : Asks P log earlier s := by
  obtain ⟨requests, hlog, hknown⟩ := h
  exact ⟨requests, hlog, hknown.halving⟩

theorem Known.getD_mem (h : Known contains n requests t) (hi : i < n) :
    t.vertices.getD i [] ∈ requests :=
  h.mem_requests _ (Simplex.getD_mem (by rwa [h.length_vertices]))

theorem Known.append {t' : Simplex α} (h : Known contains n requests t) (asked : List (Vec α))
    (hhalving : Halving contains (asked ++ requests))
    (hvertices : t'.vertices.length = t.vertices.length)
    (hvalues : t'.values.length = t.values.length)
    (hmem : ∀ y ∈ t'.vertices, y ∈ t.vertices ∨ y ∈ asked) :
    Known contains n (asked ++ requests) t' where
  halving := hhalving
  length_vertices := hvertices.trans h.length_vertices
  length_values := hvalues.trans h.length_values
  mem_requests y hy := by
    rw [List.mem_append]
    exact (hmem y hy).symm.imp id (h.mem_requests y)

theorem mem_or_mem_of_mem_set {β : Type} {l : List β} {x : β} :
    ∀ y ∈ l.set i x, y ∈ l ∨ y ∈ [x] := by
  intro y hy
  rw [List.mem_singleton]
  exact List.mem_or_eq_of_mem_set hy

/-! ## The lowest position -/

theorem lowest_addHigh (values : List α) (r : Ranking) (i : Nat) :
    (r.addHigh values i).lowest = r.lowest := by
  unfold Ranking.addHigh
  dsimp only
  split
  · rfl
  split
  · rfl
  · rfl

theorem lowest_add_le (values : List α) (r : Ranking) (i : Nat) :
    (r.add values i).lowest = r.lowest ∨ (r.add values i).lowest = i := by
  unfold Ranking.add Ranking.addLow
  split
  · exact .inr rfl
  · exact .inl (lowest_addHigh values r i)

theorem lowest_ranking_lt {values : List α} (h : 0 < values.length) :
    (ranking values).lowest < values.length := by
  have hfold (places : List Nat) (hplaces : ∀ i ∈ places, i < values.length) (r : Ranking)
      (hr : r.lowest < values.length) :
      (places.foldl (Ranking.add values) r).lowest < values.length := by
    induction places generalizing r with
    | nil => exact hr
    | cons i places ih =>
        rw [List.forall_mem_cons] at hplaces
        apply ih hplaces.2
        rcases lowest_add_le values r i with hlow | hlow
        · rwa [hlow]
        · rw [hlow]
          exact hplaces.1
  unfold ranking
  apply hfold
  · intro i hi
    rw [List.mem_range'_1] at hi
    omega
  · split
    · exact h
    · exact h

/-! ## Moves -/

/-- An extrapolation asks in the region, and what it replaces it replaces by a point that it
asked for. -/
structure Tries (P : Problem σ α) (log : σ → List (Vec α)) (asked : List (Vec α))
    (s s' : Session σ (Simplex α) α) : Prop where
  log_eq : log s'.progress.oracle = asked ++ log s.progress.oracle
  feasible : ∀ x ∈ asked, P.region.contains x = true
  rule_eq : s'.rule = s.rule
  length_vertices : s'.memory.vertices.length = s.memory.vertices.length
  length_values : s'.memory.values.length = s.memory.values.length
  mem_vertices : ∀ y ∈ s'.memory.vertices, y ∈ s.memory.vertices ∨ y ∈ asked

theorem Tries.knows {s' : Session σ (Simplex α) α} {asked : List (Vec α)}
    (htries : Tries P log asked s s') (h : Knows P log earlier n s) :
    Knows P log earlier n s' := by
  obtain ⟨requests, hlog, hknown⟩ := h
  refine ⟨asked ++ requests, by rw [htries.log_eq, hlog, List.append_assoc], ?_⟩
  exact hknown.append asked (hknown.halving.append htries.feasible) htries.length_vertices
    htries.length_values htries.mem_vertices

theorem leads_extrapolate (logs : P.objective.Logs log) (s : Session σ (Simplex α) α)
    (highest : Nat) (factor : α) :
    Leads (extrapolate P highest factor) s
      (fun _ s' => ∃ asked, Tries P log asked s s')
      (fun _ s' => ∃ asked, Tries P log asked s s') := by
  unfold extrapolate
  rw [leads_bind, leads_get]
  dsimp only
  cases hreach : reach P.region.contains (s.memory.values.length - 1) s.memory.sum
      (s.memory.vertices.getD highest []) maxHalvings factor with
  | none => exact ⟨[], rfl, nofun, rfl, rfl, rfl, fun _ hy => .inl hy⟩
  | some found =>
      obtain ⟨trial, taken⟩ := found
      have hfeasible : ∀ x ∈ [trial], P.region.contains x = true := by
        simpa using (reach_eq_some hreach).1
      rw [leads_bind]
      refine (leads_logged logs trial s).mono ?_ ?_
      · rintro v s₁ ⟨-, hlog₁, hrule, hmemory⟩
        simp only [leads_bind, leads_ite, leads_remember, leads_pure]
        rw [hmemory]
        constructor
        · intro _
          exact ⟨[trial], hlog₁, hfeasible, hrule, List.length_set, List.length_set,
            mem_or_mem_of_mem_set⟩
        · intro _
          refine ⟨[trial], hlog₁, hfeasible, hrule, ?_, ?_, ?_⟩
          · rw [hmemory]
          · rw [hmemory]
          · rw [hmemory]
            exact fun _ hy => .inl hy
      · rintro e s₁ ⟨-, hlog₁, hrule, hmemory⟩
        refine ⟨[trial], hlog₁, hfeasible, hrule, ?_, ?_, ?_⟩
        · rw [hmemory]
        · rw [hmemory]
        · rw [hmemory]
          exact fun _ hy => .inl hy

theorem leads_extrapolate_known (logs : P.objective.Logs log) (h : Knows P log earlier n s)
    (highest : Nat) (factor : α) :
    Leads (extrapolate P highest factor) s
      (fun _ s' => Knows P log earlier n s' ∧ s'.rule = s.rule)
      (fun _ s' => Asks P log earlier s') := by
  refine (leads_extrapolate logs s highest factor).mono ?_ ?_
  · rintro _ s' ⟨asked, htries⟩
    exact ⟨htries.knows h, htries.rule_eq⟩
  · rintro _ s' ⟨asked, htries⟩
    exact (htries.knows h).asks

theorem leads_shrinkVertex (logs : P.objective.Logs log) (h : Knows P log earlier n s)
    (hlowest : lowest < n) (hi : i < n) :
    Leads (shrinkVertex P lowest i) s
      (fun _ s' => Knows P log earlier n s' ∧ s'.rule = s.rule)
      (fun _ s' => Asks P log earlier s') := by
  obtain ⟨requests, hlog, hknown⟩ := h
  unfold shrinkVertex
  rw [leads_ite]
  refine ⟨fun _ => ?_, fun _ => ⟨⟨requests, hlog, hknown⟩, rfl⟩⟩
  have hx := hknown.halving.halfway (hknown.getD_mem hi) (hknown.getD_mem hlowest)
  rw [midpoint] at hx
  rw [leads_bind, leads_get]
  dsimp only
  generalize Vec.scale (0.5 : α) _ = x at hx ⊢
  simp only [leads_bind, leads_remember]
  refine (leads_logged logs x _).mono ?_ ?_
  · rintro v s₁ ⟨-, hlog₁, hrule, hmemory⟩
    refine ⟨⟨x :: requests, by rw [hlog₁, hlog, List.cons_append], ?_⟩, hrule⟩
    rw [hmemory]
    exact hknown.append [x] hx List.length_set List.length_set mem_or_mem_of_mem_set
  · rintro e s₁ ⟨-, hlog₁, -⟩
    exact ⟨x :: requests, by rw [hlog₁, hlog, List.cons_append], hx⟩

theorem leads_shrink (logs : P.objective.Logs log) (h : Knows P log earlier n s)
    (hlowest : lowest < n) :
    Leads (shrink P lowest) s
      (fun _ s' => Knows P log earlier n s' ∧ s'.rule = s.rule)
      (fun _ s' => Asks P log earlier s') := by
  have hforM (places : List Nat) (hplaces : ∀ i ∈ places, i < n) (s : Session σ (Simplex α) α)
      (h : Knows P log earlier n s) :
      Leads (places.forM (shrinkVertex P lowest)) s
        (fun _ s' => Knows P log earlier n s' ∧ s'.rule = s.rule)
        (fun _ s' => Asks P log earlier s') := by
    induction places generalizing s with
    | nil => exact ⟨h, rfl⟩
    | cons i places ih =>
        rw [List.forall_mem_cons] at hplaces
        rw [List.forM_eq_forM, List.forM_cons]
        refine (leads_shrinkVertex logs h hlowest hplaces.1).bind ?_
        rintro - s₁ ⟨h₁, hrule⟩
        refine (ih hplaces.2 s₁ h₁).imp ?_
        exact fun _ s₂ h₂ => ⟨h₂.1, h₂.2.trans hrule⟩
  unfold shrink
  rw [leads_bind, leads_get]
  apply hforM _ _ s h
  obtain ⟨requests, -, hknown⟩ := h
  intro i hi
  rwa [List.mem_range, hknown.length_vertices] at hi

theorem leads_contract (logs : P.objective.Logs log) {r : Ranking}
    (h : Knows P log earlier n s) (hlowest : r.lowest < n) :
    Leads (contract P r) s
      (fun _ s' => Knows P log earlier n s' ∧ s'.rule = s.rule)
      (fun _ s' => Asks P log earlier s') := by
  unfold contract
  rw [leads_bind, leads_get]
  refine (leads_extrapolate_known logs h r.highest 0.5).bind ?_
  rintro (_ | contracted) s₁ ⟨h₁, hrule₁⟩
  · exact ⟨h₁, hrule₁⟩
  · dsimp only
    rw [leads_ite]
    refine ⟨fun _ => ?_, fun _ => ⟨h₁, hrule₁⟩⟩
    refine (leads_shrink logs h₁ hlowest).bind ?_
    exact fun _ s₂ h₂ => ⟨h₂.1, h₂.2.trans hrule₁⟩

theorem leads_moves (logs : P.objective.Logs log) {r : Ranking}
    (h : Knows P log earlier n s) (hlowest : r.lowest < n) :
    Leads (moves P r) s
      (fun _ s' => Knows P log earlier n s' ∧ s'.rule = s.rule)
      (fun _ s' => Asks P log earlier s') := by
  unfold moves
  refine (leads_extrapolate_known logs h r.highest (-1)).bind ?_
  rintro (_ | reflected) s₁ ⟨h₁, hrule₁⟩
  · exact ⟨h₁, hrule₁⟩
  · rw [leads_bind, leads_get, leads_ite]
    refine ⟨fun _ => ?_, fun _ => leads_ite.mpr ⟨fun _ => ?_, fun _ => ⟨h₁, hrule₁⟩⟩⟩
    · refine (leads_extrapolate_known logs h₁ r.highest 2.0).bind ?_
      exact fun _ s₂ h₂ => ⟨h₂.1, h₂.2.trans hrule₁⟩
    · refine (leads_contract logs h₁ hlowest).imp ?_
      exact fun _ s₂ h₂ => ⟨h₂.1, h₂.2.trans hrule₁⟩

/-! ## Runs -/

def Returns (P : Problem σ α) (log : σ → List (Vec α)) (earlier : List (Vec α))
    (s : Session σ (Simplex α) α) : Prop :=
  ∃ requests, log s.progress.oracle = requests ++ earlier ∧
    Halving P.region.contains requests ∧ s.progress.point ∈ requests

theorem Returns.asks (h : Returns P log earlier s) : Asks P log earlier s := by
  obtain ⟨requests, hlog, hhalving, -⟩ := h
  exact ⟨requests, hlog, hhalving⟩

theorem leads_settle_vertex (h : Knows P log earlier n s) (hlowest : lowest < n) :
    Leads (settle lowest) s (fun _ s' => Returns P log earlier s')
      (fun _ s' => Asks P log earlier s') := by
  obtain ⟨requests, hlog, hknown⟩ := h
  unfold settle
  rw [leads_bind, leads_get, leads_settle]
  exact ⟨requests, hlog, hknown.halving, hknown.getD_mem hlowest⟩

theorem leads_finish (h : Knows P log earlier n s) (hlowest : lowest < n) (iteration : Nat) :
    Leads (finish lowest iteration) s (fun _ s' => Returns P log earlier s')
      (fun _ s' => Asks P log earlier s') := by
  unfold finish
  simp only [leads_bind, leads_mark, leads_check, leads_outcome]
  exact leads_settle_vertex h hlowest

theorem leads_finished {iteration : Nat} {stop : Failure α → Session σ (Simplex α) α → Prop} :
    Leads (finished n iteration) s
      (fun fired s' => s'.memory = s.memory ∧ s'.progress = s.progress ∧
        (fired = false → s'.rule = s.rule ∧ iteration < s.rule.maxIterations)) stop := by
  unfold finished
  simp only [leads_bind, leads_get, leads_ite, leads_pure, leads_check]
  exact ⟨fun _ => ⟨trivial, trivial, by simp⟩,
    fun _ => ⟨trivial, trivial, StoppingRule.checkMaxIterations_eq_false⟩⟩

theorem leads_iterate_succ (logs : P.objective.Logs log) {dimension more iteration : Nat}
    (h : Knows P log earlier n s) (hn : 0 < n)
    (hnext : ∀ s', Knows P log earlier n s' → s'.rule = s.rule →
      iteration < s.rule.maxIterations →
      Leads (iterate P dimension more (iteration + 1)) s'
        (fun _ s' => Returns P log earlier s') (fun _ s' => Asks P log earlier s')) :
    Leads (iterate P dimension (more + 1) iteration) s
      (fun _ s' => Returns P log earlier s') (fun _ s' => Asks P log earlier s') := by
  obtain ⟨requests, hlog, hknown⟩ := h
  have hlowest : (ranking s.memory.values).lowest < n := by
    have hlength := hknown.length_values
    rw [← hlength]
    exact lowest_ranking_lt (by omega)
  unfold iterate
  simp only [leads_bind, leads_remember, leads_get]
  refine leads_finished.imp ?_
  rintro fired s₁ ⟨hmemory, hprogress, hgoes⟩
  have h₁ : Knows P log earlier n s₁ := by
    refine ⟨requests, ?_, ?_⟩
    · rw [hprogress]
      exact hlog
    · rw [hmemory]
      exact { hknown with }
  rw [leads_ite]
  refine ⟨fun _ => leads_finish h₁ hlowest iteration, fun hfired => ?_⟩
  obtain ⟨hrule, hlt⟩ := hgoes (eq_false_of_ne_true hfired)
  refine (leads_moves logs h₁ hlowest).bind ?_
  rintro room s₂ ⟨h₂, hrule₂⟩
  rw [leads_ite]
  refine ⟨fun _ => hnext s₂ h₂ (hrule₂.trans hrule) hlt, fun _ => ?_⟩
  simp only [leads_bind, leads_mark, leads_pure]
  exact leads_settle_vertex (s := { s₂ with rule := (s₂.rule.mark .stationaryValue).2 }) h₂ hlowest

theorem leads_iterate (logs : P.objective.Logs log) {dimension more iteration : Nat}
    (h : Knows P log earlier n s) (hn : 0 < n) (hmore : more + iteration = s.rule.maxIterations) :
    Leads (iterate P dimension (more + 1) iteration) s
      (fun _ s' => Returns P log earlier s') (fun _ s' => Asks P log earlier s') := by
  induction more generalizing iteration s with
  | zero =>
      refine leads_iterate_succ logs h hn fun s' _ _ hlt => ?_
      omega
  | succ more ih =>
      refine leads_iterate_succ logs h hn fun s' h' hrule _ => ?_
      exact ih h' (by rw [hrule]; omega)

theorem leads_evaluateVertices (logs : P.objective.Logs log) {rest : List (Vec α)}
    (hfeasible : ∀ x ∈ rest, P.region.contains x = true) (h : Asks P log earlier s) :
    Leads (evaluateVertices P rest) s
      (fun _ s' => log s'.progress.oracle = rest.reverse ++ log s.progress.oracle ∧
        s'.rule = s.rule ∧ s'.memory.vertices = s.memory.vertices ∧
        s'.memory.values.length = s.memory.values.length + rest.length)
      (fun _ s' => Asks P log earlier s') := by
  induction rest generalizing s with
  | nil => exact ⟨rfl, rfl, rfl, rfl⟩
  | cons x rest ih =>
      rw [List.forall_mem_cons] at hfeasible
      obtain ⟨requests, hlog, hhalving⟩ := h
      unfold evaluateVertices
      rw [if_pos hfeasible.1, leads_bind]
      have hasks (s' : Session σ (Simplex α) α)
          (hlog' : log s'.progress.oracle = x :: log s.progress.oracle) : Asks P log earlier s' :=
        ⟨x :: requests, by rw [hlog', hlog, List.cons_append], .inside hfeasible.1 hhalving⟩
      refine (leads_logged logs x s).mono ?_ fun e s₁ h₁ => hasks s₁ h₁.2.1
      rintro v s₁ ⟨-, hlog₁, hrule₁, hmemory₁⟩
      rw [leads_bind, leads_remember]
      refine (ih (s := { s₁ with memory := { s₁.memory with values := s₁.memory.values ++ [v] } })
        hfeasible.2 (hasks _ hlog₁)).imp ?_
      rintro - s₂ ⟨hlog₂, hrule₂, hvertices₂, hvalues₂⟩
      refine ⟨?_, hrule₂.trans hrule₁, ?_, ?_⟩
      · rw [hlog₂, hlog₁, List.reverse_cons, List.append_assoc, List.singleton_append]
      · rw [hvertices₂, hmemory₁]
      · rw [hvalues₂, hmemory₁, List.length_append, List.length_cons, List.length_cons,
          List.length_nil]
        omega

theorem leads_proceed (logs : P.objective.Logs log) {vertices : List (Vec α)}
    (hvertices : checkedVertices P.region s.progress.point s.memory.lambda = .ok vertices) :
    Leads (proceed P vertices) (laidOut s vertices)
      (fun _ s' => Returns P log (log s.progress.oracle) s')
      (fun _ s' => Asks P log (log s.progress.oracle) s') := by
  obtain ⟨hlength, hfeasible⟩ := checkedVertices_eq_ok hvertices
  unfold proceed
  rw [leads_bind, leads_get]
  refine (leads_evaluateVertices logs hfeasible ⟨[], rfl, .start⟩).bind ?_
  rintro - s₁ ⟨hlog, hrule, hvertices₁, hvalues⟩
  have hrequested (x : Vec α) (hx : x ∈ s₁.memory.vertices) : x ∈ vertices.reverse := by
    rw [hvertices₁] at hx
    exact List.mem_reverse.mpr hx
  have hknows : Knows P log (log s.progress.oracle) vertices.length s₁ := by
    refine ⟨vertices.reverse, hlog, ?_, congrArg _ hvertices₁, ?_, hrequested⟩
    · rw [← List.append_nil vertices.reverse]
      exact Halving.start.append fun x hx => hfeasible x (List.mem_reverse.mp hx)
    · rw [hvalues]
      simp [laidOut]
  obtain ⟨more, hmore⟩ := Nat.exists_eq_succ_of_ne_zero s₁.rule.maxIterations_pos.ne'
  rw [leads_bind, leads_get, hmore]
  exact leads_iterate logs hknows (by omega) hmore.symm

theorem leads_minimize_returns (logs : P.objective.Logs log) (s : Session σ (Simplex α) α) :
    Leads (Simplex.minimize P) s
      (fun _ s' => Returns P log (log s.progress.oracle) s')
      (fun _ s' => Asks P log (log s.progress.oracle) s') := by
  unfold Simplex.minimize
  rw [leads_bind, Leads, start_apply]
  cases hvertices : checkedVertices P.region s.progress.point s.memory.lambda with
  | ok vertices => exact leads_proceed logs hvertices
  | error e => exact ⟨[], rfl, .start⟩

/-- Initial vertices and trial points are asked for in the region only.  Whatever else a run
asks for halves the way between two points that it asked for before, and a run with an outcome
ends at a point that it asked for.  So in a region that is closed under halving all of these
are feasible. -/
theorem minimize_halves (logs : P.objective.Logs log) (s : Session σ (Simplex α) α) :
    (∀ vertices s', Simplex.start P s = (.ok vertices, s') →
      ∀ x ∈ vertices, P.region.contains x = true) ∧
    (∀ highest factor, ∃ requests, log (extrapolate P highest factor s).2.progress.oracle =
      requests ++ log s.progress.oracle ∧ ∀ x ∈ requests, P.region.contains x = true) ∧
    ∃ requests, log (Simplex.minimize P s).2.progress.oracle =
        requests ++ log s.progress.oracle ∧
      Halving P.region.contains requests ∧
      (∀ o s', Simplex.minimize P s = (.ok o, s') → s'.progress.point ∈ requests) ∧
      ((∀ u v, P.region.contains u = true → P.region.contains v = true →
          P.region.contains (midpoint u v) = true) →
        (∀ x ∈ requests, P.region.contains x = true) ∧
          ∀ o s', Simplex.minimize P s = (.ok o, s') →
            P.region.contains s'.progress.point = true) := by
  refine ⟨?_, ?_, ?_⟩
  · intro vertices s' hstart
    rw [start_apply] at hstart
    cases hvertices : checkedVertices P.region s.progress.point s.memory.lambda with
    | error e =>
        rw [hvertices] at hstart
        cases hstart
    | ok laid =>
        rw [hvertices] at hstart
        cases hstart
        exact (checkedVertices_eq_ok hvertices).2
  · intro highest factor
    obtain ⟨asked, htries⟩ := (leads_extrapolate logs s highest factor).final
    exact ⟨asked, htries.log_eq, htries.feasible⟩
  · have hreturns := leads_minimize_returns logs s
    obtain ⟨requests, hlog, hhalving⟩ :=
      (hreturns.mono (fun _ _ h => h.asks) fun _ _ h => h).final
    have hpoint (o : Outcome) (s' : Session σ (Simplex α) α)
        (hrun : Simplex.minimize P s = (.ok o, s')) : s'.progress.point ∈ requests := by
      obtain ⟨requests', hlog', -, hmem⟩ := hreturns.of_ok hrun
      rw [hrun, hlog'] at hlog
      rwa [List.append_cancel_right hlog] at hmem
    refine ⟨requests, hlog, hhalving, hpoint, fun closed => ?_⟩
    have hinside := hhalving.contains_of_closed closed
    exact ⟨hinside, fun o s' hrun => hinside _ (hpoint o s' hrun)⟩

/-! ## Boxes of doubles -/

theorem contains_midpoint_boundary {low high : Float} (hfinite : Scalar.isFinite low = true)
    (hlow : low ≤ (low + low) * 0.5) (hhigh : (high + high) * 0.5 ≤ high) (u v : Vec Float)
    (hu : (Constraint.boundary low high).region.contains u = true)
    (hv : (Constraint.boundary low high).region.contains v = true) :
    (Constraint.boundary low high).region.contains (midpoint u v) = true := by
  have hbot : Double.value low ≠ ⊥ := (Double.isFinite_iff.mp hfinite).2.2
  have hcoordinate (a b : Float) (ha : low ≤ a ∧ a ≤ high) (hb : low ≤ b ∧ b ≤ high) :
      low ≤ (a + b) * 0.5 ∧ (a + b) * 0.5 ≤ high := by
    have hne (c : Float) (hc : low ≤ c) : Double.value c ≠ ⊥ :=
      ne_bot_of_le_ne_bot hbot (Double.le_iff.mp hc).2.2
    constructor
    · exact le_trans hlow
        (mul_half_le_mul_half (Double.add_mono_of_ne_bot ha.1 hb.1 hbot hbot))
    · exact le_trans
        (mul_half_le_mul_half (Double.add_mono_of_ne_bot ha.2 hb.2 (hne a ha.1) (hne b hb.1)))
        hhigh
  change List.all _ _ = true at hu hv ⊢
  induction u generalizing v with
  | nil => rfl
  | cons a u ih =>
      cases v with
      | nil => rfl
      | cons b v =>
          simp only [List.all_cons, Bool.and_eq_true, decide_eq_true_eq] at hu hv
          simp only [midpoint, Vec.scale, Vec.add, List.zipWith_cons_cons, List.map_cons,
            List.all_cons, Bool.and_eq_true, decide_eq_true_eq]
          exact ⟨hcoordinate a b hu.1 hv.1, ih v hu.2 hv.2⟩

theorem minimize_halves_terraces :
    (∀ u v, boxedTerraces.region.contains u = true → boxedTerraces.region.contains v = true →
      boxedTerraces.region.contains (midpoint u v) = true) ∧
    ∃ o s', Simplex.minimize boxedTerraces (threeIterations 0.6 0.25) = (.ok o, s') ∧
      boxedTerraces.region.contains s'.progress.point = true ∧
      5 ≤ s'.progress.oracle.length ∧
      ∀ x ∈ s'.progress.oracle.map Cost.point, boxedTerraces.region.contains x = true := by
  have closed (u v : Vec Float) : boxedTerraces.region.contains u = true →
      boxedTerraces.region.contains v = true →
      boxedTerraces.region.contains (midpoint u v) = true :=
    contains_midpoint_boundary (by decide +kernel) (by decide +kernel) (by decide +kernel) u v
  obtain ⟨-, -, requests, hlog, -, -, hinside⟩ :=
    minimize_halves (P := boxedTerraces) (Cost.objective_logs _) (threeIterations 0.6 0.25)
  obtain ⟨hrequests, hpoint⟩ := hinside closed
  have hrun : (Simplex.minimize boxedTerraces (threeIterations 0.6 0.25)).1.toOption.isSome ∧
      5 ≤ (Simplex.minimize boxedTerraces (threeIterations 0.6 0.25)).2.progress.oracle.length := by
    decide +kernel
  refine ⟨closed, ?_⟩
  rcases hanswer : Simplex.minimize boxedTerraces (threeIterations 0.6 0.25) with ⟨answer, s'⟩
  rw [hanswer] at hrun hlog
  cases answer with
  | error e => cases hrun.1
  | ok o =>
      refine ⟨o, s', rfl, hpoint o s' hanswer, hrun.2, ?_⟩
      rw [hlog, threeIterations, Progress.start, List.map_nil, List.append_nil]
      exact hrequests

def beyond : Cost Float where
  value x := .ok (if x.getD 0 0 < -1.75e308 then 0 else 1)
  values := none
  gradient := none
  jacobian := none
  step := Objective.usualStep

def wideBox : Problem (List (Evaluation Float)) Float :=
  ⟨beyond.objective, (Constraint.boundary (-1.75e308) 1.75e308).region⟩

def twoIterations : Session (List (Evaluation Float)) (Simplex Float) Float where
  progress := .start [] [-1e308, 0]
  rule := ⟨2, 2, 1e-8, 1e-8, 1e-8, .running, 0, Nat.one_lt_two, by decide⟩
  memory := new 1.7e308

/-- The shrink asks for a cost outside the box, and the run ends there. -/
theorem minimize_leaves_wideBox :
    (Simplex.minimize wideBox twoIterations).1.toOption = some .maxIterations ∧
      (∃ x ∈ (Simplex.minimize wideBox twoIterations).2.progress.oracle.map Cost.point,
        wideBox.region.contains x = false) ∧
      wideBox.region.contains (Simplex.minimize wideBox twoIterations).2.progress.point =
        false := by
  decide +kernel

end Minima.Simplex
