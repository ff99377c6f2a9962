import Minima.Proofs.Double
import Minima.Proofs.LineSearch
import Minima.Proofs.Simplex.Moves
import Minima.Proofs.StoppingRule
import Minima.Region.Constraint

/-!
# The value that a run ends with

A run settles for the vertex that was lowest when its last iteration began.  This is
the lowest of all points that were asked for, except that an iteration may reflect
to a lower point and then find no room around it.
-/

namespace Minima.Simplex

variable {σ α : Type} [Scalar α] {P : Problem σ α} {value : Vec α → α}
  {log : σ → List (Vec α)} {grant : σ → σ} {earlier requests : List (Vec α)}
  {s s' : Session σ (Simplex α) α}

/-! ## The initial simplex -/

theorem mapM_eq_ok {ε β γ : Type} {f : β → Except ε γ} {p : γ → Prop} {inputs : List β}
    {outputs : List γ} (hp : ∀ b c, f b = .ok c → p c) (h : inputs.mapM f = .ok outputs) :
    outputs.length = inputs.length ∧ ∀ c ∈ outputs, p c := by
  induction inputs generalizing outputs with
  | nil =>
      cases h
      exact ⟨rfl, nofun⟩
  | cons b inputs ih =>
      rw [List.mapM_cons] at h
      cases hfirst : f b with
      | error e =>
          rw [hfirst] at h
          contradiction
      | ok c =>
          cases hrest : inputs.mapM f with
          | error e =>
              rw [hfirst, hrest] at h
              contradiction
          | ok rest =>
              rw [hfirst, hrest] at h
              cases h
              obtain ⟨hlength, hall⟩ := ih hrest
              exact ⟨by rw [List.length_cons, List.length_cons, hlength],
                List.forall_mem_cons.mpr ⟨hp b c hfirst, hall⟩⟩

theorem forall_initialVertices {region : Region α} {x : Vec α} {lambda : α}
    {vertices : List (Vec α)} {p : Vec α → Prop} (hx : p x)
    (hmoved : ∀ i taken y, region.move x (Vec.unit x.length i) lambda = .ok (taken, y) → p y)
    (h : initialVertices region x lambda = .ok vertices) :
    vertices.length = x.length + 1 ∧ ∀ y ∈ vertices, p y := by
  unfold initialVertices at h
  cases hothers : (List.range x.length).mapM fun i =>
      (·.2) <$> region.move x (Vec.unit x.length i) lambda with
  | error e =>
      rw [hothers] at h
      contradiction
  | ok others =>
      rw [hothers] at h
      cases h
      have hother (i : Nat) (y : Vec α)
          (hy : (·.2) <$> region.move x (Vec.unit x.length i) lambda = .ok y) : p y := by
        cases hmove : region.move x (Vec.unit x.length i) lambda with
        | error e =>
            rw [hmove] at hy
            contradiction
        | ok taken =>
            rw [hmove] at hy
            cases hy
            exact hmoved i taken.1 taken.2 hmove
      obtain ⟨hlength, hall⟩ := mapM_eq_ok hother hothers
      rw [List.length_cons, hlength, List.length_range]
      exact ⟨rfl, List.forall_mem_cons.mpr ⟨hx, hall⟩⟩

theorem initialVertices_eq_ok {region : Region α} {x : Vec α} {lambda : α}
    {vertices : List (Vec α)} (hx : region.contains x = true)
    (h : initialVertices region x lambda = .ok vertices) :
    vertices.length = x.length + 1 ∧ ∀ y ∈ vertices, region.contains y = true :=
  forall_initialVertices hx (fun _ _ _ hmove =>
    (Region.move_eq_ok (S := fun _ => True) (fun _ _ => trivial) trivial hmove).1) h

theorem initialVertices_of_checkedVertices {region : Region α} {x : Vec α} {lambda : α}
    {vertices : List (Vec α)} (h : checkedVertices region x lambda = .ok vertices) :
    region.contains x = true ∧ 0 < x.length ∧ initialVertices region x lambda = .ok vertices := by
  unfold checkedVertices at h
  cases hx : region.contains x with
  | false =>
      rw [hx] at h
      contradiction
  | true =>
      cases x with
      | nil =>
          rw [hx] at h
          contradiction
      | cons a x =>
          rw [hx] at h
          exact ⟨rfl, Nat.zero_lt_succ _, h⟩

theorem checkedVertices_eq_ok {region : Region α} {x : Vec α} {lambda : α}
    {vertices : List (Vec α)} (h : checkedVertices region x lambda = .ok vertices) :
    1 < vertices.length ∧ ∀ y ∈ vertices, region.contains y = true := by
  obtain ⟨hx, hpos, hvertices⟩ := initialVertices_of_checkedVertices h
  obtain ⟨hlength, hall⟩ := initialVertices_eq_ok hx hvertices
  exact ⟨hlength ▸ Nat.succ_lt_succ hpos, hall⟩

def laidOut (s : Session σ (Simplex α) α) (vertices : List (Vec α)) : Session σ (Simplex α) α :=
  ⟨s.progress.reset, s.rule.reset, { s.memory with vertices, values := [] }⟩

theorem start_apply (P : Problem σ α) (s : Session σ (Simplex α) α) :
    start P s = match checkedVertices P.region s.progress.point s.memory.lambda with
      | .ok vertices => (.ok vertices, laidOut s vertices)
      | .error e => (.error e, ⟨s.progress.reset, s.rule.reset, s.memory⟩) := by
  change (attempt (checkedVertices P.region s.progress.point s.memory.lambda) >>= fun vertices => do
    Run.remember fun s => { s with vertices, values := [] }
    return vertices) (⟨s.progress.reset, s.rule.reset, s.memory⟩ : Session σ (Simplex α) α) = _
  rw [bind_apply]
  cases checkedVertices P.region s.progress.point s.memory.lambda with
  | ok vertices => rfl
  | error e => rfl

/-- The vertices of `done` have been evaluated, those of `rest` have not. -/
structure Filling (value : Vec α → α) (log : σ → List (Vec α)) (earlier done rest : List (Vec α))
    (s : Session σ (Simplex α) α) : Prop where
  vertices_eq : s.memory.vertices = done ++ rest
  values_eq : s.memory.values = done.map value
  log_eq : log s.progress.oracle = done.reverse ++ earlier

theorem Filling.holds {vertices : List (Vec α)} (costs : P.objective.Costs value log)
    (h : Filling value log earlier vertices [] s) (hlength : 1 < vertices.length) :
    Holds value log earlier s := by
  refine ⟨vertices.reverse, h.log_eq, ?_⟩
  have hvertices : s.memory.vertices = vertices := by rw [h.vertices_eq, List.append_nil]
  exact {
    values_eq := by rw [hvertices, h.values_eq]
    one_lt_length := by rwa [h.values_eq, List.length_map]
    requested := by simp [hvertices]
    covered := by
      intro x hx
      rw [h.values_eq]
      exact ⟨value x, List.mem_map_of_mem (List.mem_reverse.mp hx), costs.defined x⟩
  }

structure Settled (P : Problem σ α) (value : Vec α → α) (requests : List (Vec α)) (o : Outcome)
    (s : Session σ (Simplex α) α) (v : α) : Prop where
  value_eq : s.progress.value = some v
  cost : value s.progress.point = v
  requested : s.progress.point ∈ requests
  mem_values : v ∈ s.memory.values
  /-- No value and no cost asked for is lower, or only the last one, which was cornered. -/
  lowest_or : ((∀ w ∈ s.memory.values, v ≤ w) ∧ ∀ x ∈ requests, v ≤ value x) ∨
    o = .stationaryValue ∧ ∃ last before, requests = last :: before ∧
      Cornered P value s.memory v last before

def Ended (P : Problem σ α) (value : Vec α → α) (log : σ → List (Vec α))
    (earlier : List (Vec α)) (o : Outcome) (s : Session σ (Simplex α) α) : Prop :=
  ∃ requests v, log s.progress.oracle = requests ++ earlier ∧ Settled P value requests o s v

theorem falls_finished {n iteration : Nat} :
    Falls grant (finished n iteration) s (fun stop s' => s'.memory = s.memory ∧
      s'.progress = s.progress ∧
      (stop = false → s'.rule = s.rule ∧ iteration < s.rule.maxIterations)) := by
  unfold finished
  refine falls_get rfl (falls_ite (fun _ => falls_pure ⟨rfl, rfl, nofun⟩) (fun _ => ?_))
  refine falls_check.mono ?_
  rintro stop s₁ ⟨rfl, rfl⟩
  exact ⟨rfl, rfl, StoppingRule.checkMaxIterations_eq_false⟩

variable [OrderedScalar α]

open OrderedScalar

theorem falls_evaluateVertices (costs : P.objective.Costs value log)
    (grants : P.objective.Grants grant log) {done rest : List (Vec α)}
    (hfeasible : ∀ x ∈ rest, P.region.contains x = true)
    (h : Filling value log earlier done rest s) :
    Falls grant (evaluateVertices P rest) s
      (fun _ s' => Filling value log earlier (done ++ rest) [] s' ∧ s'.rule = s.rule) := by
  induction rest generalizing done s with
  | nil =>
      rw [List.append_nil]
      exact falls_pure ⟨h, rfl⟩
  | cons x rest ih =>
      rw [List.forall_mem_cons] at hfeasible
      unfold evaluateVertices
      rw [if_pos hfeasible.1]
      refine falls_bind (falls_value costs grants x s) ?_
      rintro v s₁ ⟨rfl, hlog, hrule, hmemory⟩
      refine falls_bind (falls_remember (.inr ?_)) ?_
      · rw [hmemory, h.values_eq]
        intro w hw
        obtain ⟨y, -, rfl⟩ := List.mem_map.mp hw
        exact ⟨value y, List.mem_append_left _ hw, costs.defined y⟩
      · rintro - s₂ rfl
        have hfilling : Filling value log earlier (done ++ [x]) rest
            { s₁ with memory := { s₁.memory with values := s₁.memory.values ++ [value x] } } := {
          vertices_eq := by rw [hmemory, h.vertices_eq, List.append_assoc, List.singleton_append]
          values_eq := by rw [hmemory, h.values_eq, List.map_append, List.map_singleton]
          log_eq := by rw [hlog, h.log_eq, List.reverse_concat, List.cons_append]
        }
        refine (ih hfeasible.2 hfilling).mono fun _ s₃ h₃ => ?_
        rw [List.append_assoc, List.singleton_append] at h₃
        exact ⟨h₃.1, h₃.2.trans hrule⟩

/-! ## Ends -/

theorem Fits.settled {i : Nat} {o : Outcome} (h : Fits value requests s.memory)
    (hexits : Exits P value i requests s.memory)
    (ho : o = .stationaryValue ∨ Least i s.memory.values)
    (hpoint : s.progress.point = s.memory.vertices.getD i [])
    (hvalue : s.progress.value = some (s.memory.values.getD i 0)) :
    Settled P value requests o s (s.memory.values.getD i 0) where
  value_eq := hvalue
  cost := by rw [hpoint, ← h.getD_values hexits.lt_length]
  requested := by
    rw [hpoint]
    exact h.requested _ (getD_mem (by rw [h.length_vertices]; exact hexits.lt_length))
  mem_values := getD_mem hexits.lt_length
  lowest_or := by
    have hleast (hleast : Least i s.memory.values) :
        (∀ w ∈ s.memory.values, s.memory.values.getD i 0 ≤ w) ∧
          ∀ x ∈ requests, s.memory.values.getD i 0 ≤ value x := by
      refine ⟨fun w hw => hleast.le hw, fun x hx => ?_⟩
      obtain ⟨w, hw, hwx⟩ := h.covered x hx
      exact le_trans (hleast.le hw) hwx
    rcases ho with ho | ho
    · rcases hexits.least_or with hl | hcornered
      · exact .inl (hleast hl)
      · exact .inr ⟨ho, hcornered⟩
    · exact .inl (hleast ho)

theorem falls_finish {lowest iteration : Nat} (h : Fits value requests s.memory)
    (hlog : log s.progress.oracle = requests ++ earlier) (hleast : Least lowest s.memory.values) :
    Falls grant (finish lowest iteration) s (Ended P value log earlier) := by
  unfold finish
  refine falls_bind falls_mark ?_
  rintro - s₁ rfl
  refine falls_bind falls_check ?_
  rintro - s₂ ⟨-, rfl⟩
  refine falls_bind (falls_settle lowest) ?_
  rintro - s₃ rfl
  refine falls_outcome.mono ?_
  rintro o s₄ ⟨-, rfl⟩
  exact ⟨requests, _, hlog, Fits.settled h hleast.exits (.inr hleast) rfl rfl⟩

theorem falls_iterate_succ {n more iteration : Nat} (costs : P.objective.Costs value log)
    (grants : P.objective.Grants grant log) (h : Holds value log earlier s)
    (hnext : ∀ s', Holds value log earlier s' → s'.rule = s.rule →
      iteration < s.rule.maxIterations →
      Falls grant (iterate P n more (iteration + 1)) s' (Ended P value log earlier)) :
    Falls grant (iterate P n (more + 1) iteration) s (Ended P value log earlier) := by
  obtain ⟨requests, hlog, hfits⟩ := h
  have hranks := ranks_ranking (hfits.defined costs) hfits.one_lt_length
  unfold iterate
  refine falls_bind (falls_remember (.refl _)) ?_
  rintro - s₁ rfl
  refine falls_get rfl (falls_bind falls_finished ?_)
  rintro stop s₂ ⟨hmemory, hprogress, hgoes⟩
  have hfits₂ : Fits value requests s₂.memory := by
    rw [hmemory]
    exact { hfits with }
  have hlog₂ : log s₂.progress.oracle = requests ++ earlier := by
    rw [hprogress]
    exact hlog
  have hranks₂ : Ranks s₂.memory.values s₂.memory.values.length (ranking s.memory.values) := by
    rw [hmemory]
    exact hranks
  refine falls_ite (fun _ => falls_finish hfits₂ hlog₂ hranks₂.least) (fun hstop => ?_)
  obtain ⟨hrule, hlt⟩ := hgoes (eq_false_of_ne_true hstop)
  refine falls_bind (falls_moves costs grants ⟨requests, hlog₂, hfits₂⟩ hranks₂) ?_
  rintro room s₃ ⟨hrule₃, requests₃, hlog₃, hfits₃, hexits⟩
  refine falls_ite (fun _ => ?_) (fun hroom => ?_)
  · exact hnext s₃ ⟨requests₃, hlog₃, hfits₃⟩ (hrule₃.trans hrule) hlt
  · refine falls_bind falls_mark ?_
    rintro - s₄ rfl
    refine falls_bind (falls_settle _) ?_
    rintro - s₅ rfl
    exact falls_pure ⟨requests₃, _, hlog₃,
      Fits.settled hfits₃ (hexits (eq_false_of_ne_true hroom)) (.inl rfl) rfl rfl⟩

theorem falls_iterate {n more iteration : Nat} (costs : P.objective.Costs value log)
    (grants : P.objective.Grants grant log) (h : Holds value log earlier s)
    (hmore : more + iteration = s.rule.maxIterations) :
    Falls grant (iterate P n (more + 1) iteration) s (Ended P value log earlier) := by
  induction more generalizing iteration s with
  | zero =>
      refine falls_iterate_succ costs grants h fun s' _ _ hlt => ?_
      omega
  | succ more ih =>
      refine falls_iterate_succ costs grants h fun s' h' hrule _ => ?_
      exact ih h' (by rw [hrule]; omega)

/-! ## The run -/

theorem falls_proceed (costs : P.objective.Costs value log) (grants : P.objective.Grants grant log)
    {vertices : List (Vec α)}
    (hvertices : checkedVertices P.region s.progress.point s.memory.lambda = .ok vertices) :
    Falls grant (proceed P vertices) (laidOut s vertices)
      (Ended P value log (log s.progress.oracle)) := by
  unfold proceed
  obtain ⟨hlength, hfeasible⟩ := checkedVertices_eq_ok hvertices
  have hfilling : Filling value log (log s.progress.oracle) [] vertices (laidOut s vertices) :=
    ⟨rfl, rfl, rfl⟩
  refine falls_get rfl (falls_bind (falls_evaluateVertices costs grants hfeasible hfilling) ?_)
  rintro - s₁ ⟨hfilling₁, -⟩
  refine falls_get rfl ?_
  obtain ⟨more, hmore⟩ : ∃ more, s₁.rule.maxIterations = more + 1 := by
    have hbudget := s₁.rule.one_lt_stationaryBudget
    have hbudget_le := s₁.rule.stationaryBudget_le
    exact ⟨s₁.rule.maxIterations - 1, by omega⟩
  rw [hmore]
  exact falls_iterate costs grants (hfilling₁.holds costs hlength) hmore.symm

theorem leads_minimize (costs : P.objective.Costs value log) (s : Session σ (Simplex α) α) :
    Leads (minimize P) s (Ended P value log (log s.progress.oracle)) (fun _ _ => True) := by
  unfold minimize
  rw [leads_bind, Leads, start_apply]
  cases hvertices : checkedVertices P.region s.progress.point s.memory.lambda with
  | ok vertices =>
      have hfalls := falls_proceed costs (P.objective.grants_id log) hvertices
      exact hfalls.leads.mono (fun _ _ h => h.1) fun _ _ _ => trivial
  | error e => trivial

theorem undercuts_minimize (costs : P.objective.Costs value log)
    (grants : P.objective.Grants grant log) (s : Session σ (Simplex α) α) :
    Undercuts (minimize P (granted grant s)).2.memory.values
      (minimize P s).2.memory.values := by
  unfold minimize
  rw [bind_apply, bind_apply, start_apply, start_apply]
  -- One request more changes neither the point nor the memory.
  have hsame : checkedVertices P.region (granted grant s).progress.point
      (granted grant s).memory.lambda =
        checkedVertices P.region s.progress.point s.memory.lambda := rfl
  rw [hsame]
  cases hvertices : checkedVertices P.region s.progress.point s.memory.lambda with
  | ok vertices => exact (falls_proceed costs grants hvertices).undercuts
  | error e => exact .refl _

/-- The values that the method holds when it makes its request number `k`, counted from zero,
or those that it leaves if it makes fewer: an objective that gives up on this request shows
them. -/
def valuesAt (P : Problem σ α) (s : Session σ (Simplex α) α) (k : Nat) : List α :=
  (minimize P.limited { s with progress := s.progress.limited k }).2.memory.values

/-- For a cost that depends on the point alone and is never undefined, in any region: from one
request to the next the least value never rises.  A run that ends with an outcome stores the
cost of its current point, which it asked for.  This is the least of the values and of all
costs that the run asked for, unless the run ended for want of room around the last point it
asked for; then it is the least of the others. -/
theorem minimize_lowest (costs : P.objective.Costs value log) (s : Session σ (Simplex α) α) :
    (∀ k, Undercuts (valuesAt P s (k + 1)) (valuesAt P s k)) ∧
      ∀ o s', minimize P s = (.ok o, s') →
        ∃ requests v, log s'.progress.oracle = requests ++ log s.progress.oracle ∧
          Settled P value requests o s' v := by
  constructor
  · intro k
    exact undercuts_minimize (P := P.limited) (Objective.limited_costs costs)
      (P.objective.limited_grants log) { s with progress := s.progress.limited k }
  · intro o s' hrun
    exact (leads_minimize costs s).of_ok hrun

/-! ## Terraces -/

def terraces (first second : Float) : Cost Float where
  value x := .ok (if second < x.getD 0 0 then 0 else if first < x.getD 0 0 then 1 else 2)
  values := none
  gradient := none
  jacobian := none
  step := Objective.usualStep

theorem terraces_defined (first second : Float) (x : Vec Float) :
    (terraces first second).valueOrZero x ≤ (terraces first second).valueOrZero x := by
  unfold Cost.valueOrZero terraces
  dsimp only [Except.toOption, Option.getD]
  split
  · exact zero_le_zero
  split
  · decide
  · decide

def threeIterations (lambda x : Float) :
    Session (List (Evaluation Float)) (Simplex Float) Float where
  progress := .start [] [x]
  rule := ⟨3, 2, 1e-8, 1e-8, 1e-8, .running, 0, Nat.one_lt_two, StoppingRule.two_le_three⟩
  memory := new lambda

def openTerraces : Problem (List (Evaluation Float)) Float :=
  ⟨(terraces 1 2).objective, Constraint.none.region⟩

def boxedTerraces : Problem (List (Evaluation Float)) Float :=
  ⟨(terraces 0.3 0.6).objective, (Constraint.boundary 0 1).region⟩

theorem minimize_lowest_terraces :
    openTerraces.objective.Costs (terraces 1 2).valueOrZero (List.map Cost.point) ∧
      (∀ k, Undercuts (valuesAt openTerraces (threeIterations 0.6 0) (k + 1))
        (valuesAt openTerraces (threeIterations 0.6 0) k)) ∧
      ∃ v, (minimize openTerraces (threeIterations 0.6 0)).2.progress.value = some v ∧
        (∀ w ∈ (minimize openTerraces (threeIterations 0.6 0)).2.memory.values, v ≤ w) ∧
        ∀ x ∈ (minimize openTerraces (threeIterations 0.6 0)).2.progress.oracle.map Cost.point,
          v ≤ (terraces 1 2).valueOrZero x := by
  have costs : openTerraces.objective.Costs (terraces 1 2).valueOrZero (List.map Cost.point) :=
    Cost.objective_costs (terraces_defined 1 2)
  obtain ⟨hfalls, hended⟩ := minimize_lowest costs (threeIterations 0.6 0)
  refine ⟨costs, hfalls, ?_⟩
  have houtcome : (minimize openTerraces (threeIterations 0.6 0)).1.toOption =
      some .maxIterations := by
    decide +kernel
  rcases hrun : minimize openTerraces (threeIterations 0.6 0) with ⟨answer, s'⟩
  rw [hrun] at houtcome
  cases answer with
  | error e => cases houtcome
  | ok o =>
      obtain ⟨requests, v, hlog, hsettled⟩ := hended o s' hrun
      rw [threeIterations, Progress.start, List.map_nil, List.append_nil] at hlog
      rcases hsettled.lowest_or with ⟨hvalues, hrequests⟩ | ⟨rfl, -⟩
      · exact ⟨v, hsettled.value_eq, hvalues, by rwa [hlog]⟩
      · cases houtcome

def farTerraces : Problem (List (Evaluation Float)) Float :=
  ⟨(terraces 5e306 1e308).objective, (Constraint.boundary 0 1.7e308).region⟩

/-- The reflected vertex is the lowest, but the run settles for the other. -/
theorem minimize_not_lowest :
    (minimize farTerraces (threeIterations 7.9e307 1e306)).1.toOption = some .stationaryValue ∧
      ∃ v, (minimize farTerraces (threeIterations 7.9e307 1e306)).2.progress.value = some v ∧
        ∃ w ∈ (minimize farTerraces (threeIterations 7.9e307 1e306)).2.memory.values, w < v := by
  have hrun : (minimize farTerraces (threeIterations 7.9e307 1e306)).1.toOption =
      some .stationaryValue ∧
        (minimize farTerraces (threeIterations 7.9e307 1e306)).2.progress.value.any
          (fun v => (minimize farTerraces (threeIterations 7.9e307 1e306)).2.memory.values.any
            (· < v)) = true := by
    decide +kernel
  refine ⟨hrun.1, ?_⟩
  obtain ⟨v, hv, hany⟩ := (Option.any_eq_true _ _).mp hrun.2
  obtain ⟨w, hw, hlt⟩ := List.any_eq_true.mp hany
  exact ⟨v, hv, w, hw, of_decide_eq_true hlt⟩

end Minima.Simplex
