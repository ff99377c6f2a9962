import Minima.Proofs.Evolution.Generations

/-!
# Runs of differential evolution

A run is founded on a first population and goes on by passes.  What holds of the first
generation and outlives every pass holds of every generation, and of the one that the run settles
for.
-/

namespace Minima.Evolution

variable {ρ σ α : Type} [Scalar α] {P : Problem σ α} {origin : σ}
  {trail : σ → List (Vec α) → Prop} {Trial : Vec α → Prop} {seen : List (Candidate α)}
  {box : Setup α}
  {state : State α} {s s₁ : Session σ (Evolution ρ α) α} {x : Vec α}

/-! ## The first generation -/

theorem setup_checks {region : Region α} {c : Settings α} (h : setup region c x = .ok box) :
    box.settings = c ∧ box.lower.length = x.length ∧ box.upper.length = x.length ∧
      c.upper.elim (region.upper x) .ok = .ok box.upper ∧
      c.lower.elim (region.lower x) .ok = .ok box.lower ∧
      ∀ p ∈ box.upper.zip box.lower, Scalar.isFinite p.1 = true ∧ Scalar.isFinite p.2 = true ∧
        Scalar.isFinite (p.1 - p.2) = true := by
  unfold setup at h
  cases hupper : c.upper.elim (region.upper x) .ok with
  | error e =>
      rw [hupper] at h
      contradiction
  | ok upper =>
      cases hlower : c.lower.elim (region.lower x) .ok with
      | error e =>
          rw [hupper, hlower] at h
          contradiction
      | ok lower =>
          rw [hupper, hlower] at h
          by_cases hlengths : upper.length ≠ x.length ∨ lower.length ≠ x.length
          · simp only [bind, Except.bind, if_pos hlengths] at h
            contradiction
          · simp only [bind, Except.bind, if_neg hlengths] at h
            obtain ⟨hupperLength, hlowerLength⟩ := not_or.mp hlengths
            split at h
            · rename_i hall
              cases h
              refine ⟨rfl, not_not.mp hlowerLength, not_not.mp hupperLength, rfl, rfl, ?_⟩
              rintro ⟨u, l⟩ hp
              have hfinite := List.all_eq_true.mp hall _
                (List.map_uncurry_zip_eq_zipWith ▸ List.mem_map_of_mem hp)
              simpa [and_assoc] using hfinite
            · contradiction

theorem setup_eq_ok {region : Region α} {c : Settings α} (h : setup region c x = .ok box) :
    box.settings = c ∧ box.lower.length = x.length ∧ box.upper.length = x.length ∧
      c.upper.elim (region.upper x) .ok = .ok box.upper ∧
      c.lower.elim (region.lower x) .ok = .ok box.lower := by
  obtain ⟨hsettings, hlower, hupper, hupperBound, hlowerBound, -⟩ := setup_checks h
  exact ⟨hsettings, hlower, hupper, hupperBound, hlowerBound⟩

omit [Scalar α] in
theorem box_eq {e : Evolution ρ α} (h : box.settings = e.settings) :
    Evolution.box { e with lower := box.lower, upper := box.upper } = box := by
  cases box
  cases h
  rfl

theorem setup_finite {region : Region α} {c : Settings α} (h : setup region c x = .ok box) :
    (∀ l ∈ box.lower, Scalar.isFinite l = true) ∧ ∀ u ∈ box.upper, Scalar.isFinite u = true := by
  obtain ⟨-, hlower, hupper, -, -, hfinite⟩ := setup_checks h
  have hsame : box.upper.length = box.lower.length := hupper.trans hlower.symm
  constructor
  · intro l hl
    rw [← List.map_snd_zip (Nat.le_of_eq hsame.symm)] at hl
    obtain ⟨p, hp, rfl⟩ := List.mem_map.mp hl
    exact (hfinite p hp).2.1
  · intro u hu
    rw [← List.map_fst_zip (Nat.le_of_eq hsame)] at hu
    obtain ⟨p, hp, rfl⟩ := List.mem_map.mp hu
    exact (hfinite p hp).1

theorem leads_enter (tracks : P.objective.Tracks origin trail) {n : Nat}
    (hx : x.length = n → P.region.contains x = true → Trial x)
    (h : Evaluates P trail Trial s seen) :
    Leads (enter P n x) s (fun c s' => Evaluates P trail Trial s' (c :: seen))
      (fun _ s' => Asks trail Trial s') := by
  unfold enter
  simp only [leads_bind, leads_ite, leads_throw]
  refine ⟨fun _ => h.asks, fun hlength => ⟨fun _ => h.asks, fun hcontains => ?_⟩⟩
  have htrial := hx (Decidable.not_not.mp hlength) (by simpa using hcontains)
  exact (leads_evaluate tracks h htrial).mono (fun c s' h => h.2) fun _ _ h => h.1

theorem leads_mapM_enter (tracks : P.objective.Tracks origin trail) {n : Nat}
    {members : List (Vec α)}
    (hmembers : ∀ x ∈ members, x.length = n → P.region.contains x = true → Trial x)
    (h : Evaluates P trail Trial s seen) :
    Leads (members.mapM (enter P n)) s
      (fun made s' => Evaluates P trail Trial s' (made.reverse ++ seen))
      (fun _ s' => Asks trail Trial s') := by
  induction members generalizing s seen with
  | nil => exact h
  | cons x members ih =>
      obtain ⟨hx, hmembers⟩ := List.forall_mem_cons.mp hmembers
      rw [List.mapM_cons]
      refine (leads_enter tracks hx h).bind ?_
      intro c s₁ h₁
      refine (ih hmembers h₁).bind ?_
      intro made s₂ h₂
      rwa [leads_pure, List.reverse_cons, List.append_assoc]

variable [RandomSource ρ]

theorem leads_randomMembers (tracks : P.objective.Tracks origin trail) {n : Nat}
    (admits : Admits ρ box n Trial) (hx : Trial x) (count : Nat)
    (h : Evaluates P trail Trial s seen) :
    Leads (randomMembers P box count) s
      (fun made s' => Evaluates P trail Trial s' (made.reverse ++ seen))
      (fun e s' => Asks trail Trial s' ∧ Breaks P e) := by
  induction count generalizing s seen with
  | zero => exact h
  | succ count ih =>
      rw [randomMembers]
      refine (leads_draw (admits.random hx) h).bind ?_
      rintro y s₁ ⟨hy, h₁⟩
      refine (leads_evaluate tracks h₁ hy).bind ?_
      rintro c s₂ ⟨-, h₂⟩
      refine (ih h₂).bind ?_
      intro made s₃ h₃
      rwa [leads_pure, List.reverse_cons, List.append_assoc]

theorem leads_firstPopulation_random (tracks : P.objective.Tracks origin trail)
    (h : Evaluates P trail Trial s []) (hstart : Trial s.progress.point)
    (hinitial : box.settings.initial = none) (hcontains : P.region.contains s.progress.point = true)
    (admits : Admits ρ box s.progress.point.length Trial) :
    Leads (firstPopulation P box) s
      (fun made s' => made ≠ [] ∧ Evaluates P trail Trial s' made.reverse)
      (fun e s' => Asks trail Trial s' ∧ Breaks P e) := by
  unfold firstPopulation
  rw [leads_bind, leads_get, hinitial]
  simp only [leads_bind, leads_ite, leads_throw]
  refine ⟨fun hnot => by simp [hcontains] at hnot, fun _ => ?_⟩
  refine (leads_evaluate tracks h hstart).imp ?_
  rintro c s₁ ⟨-, h₁⟩
  refine (leads_randomMembers tracks admits hstart _ h₁).imp ?_
  intro made s₂ h₂
  rw [leads_pure, List.reverse_cons]
  exact ⟨List.cons_ne_nil _ _, h₂⟩

theorem leads_firstPopulation (tracks : P.objective.Tracks origin trail)
    (h : Evaluates P trail Trial s [])
    (admits : Admits ρ box s.progress.point.length Trial)
    (hgiven : ∀ x ∈ box.settings.initial.getD [s.progress.point],
      x.length = s.progress.point.length → P.region.contains x = true → Trial x) :
    Leads (firstPopulation P box) s
      (fun made s' => Evaluates P trail Trial s' made.reverse)
      (fun _ s' => Asks trail Trial s') := by
  cases hinitial : box.settings.initial with
  | some members =>
      rw [hinitial] at hgiven
      unfold firstPopulation
      rw [leads_bind, leads_get, hinitial]
      refine (leads_mapM_enter tracks hgiven h).imp ?_
      intro made s₁ h₁
      rwa [List.append_nil] at h₁
  | none =>
      rw [hinitial] at hgiven
      cases hcontains : P.region.contains s.progress.point with
      | true =>
          have hstart := hgiven _ List.mem_cons_self rfl hcontains
          exact (leads_firstPopulation_random tracks h hstart hinitial hcontains admits).mono
            (fun _ _ h => h.2) fun _ _ h => h.1
      | false =>
          unfold firstPopulation
          rw [leads_bind, leads_get, hinitial]
          simp only [leads_ite, leads_throw, leads_bind]
          exact ⟨fun _ => h.asks, fun hnot => by simp [hcontains] at hnot⟩

structure Founds (made : List (Candidate α)) (first : State α) : Prop where
  population_eq : first.population = bestToFront made
  head_eq : first.population.head? = some first.best

omit [RandomSource ρ] in
theorem Founds.breeds {made : List (Candidate α)} {first : State α}
    (h : Founds made first) (hweights : s.memory.weights.length = made.length) :
    Breeds first s made.reverse := by
  have hpopulation : ∀ c ∈ first.population, c ∈ made.reverse := by
    intro c hc
    rw [h.population_eq, (bestToFront_perm made).mem_iff] at hc
    exact List.mem_reverse.mpr hc
  refine ⟨?_, hpopulation, hpopulation _ (List.mem_of_head? h.head_eq)⟩
  rw [hweights, h.population_eq, (bestToFront_perm made).length_eq]

/-- What the points have in common that a run from `s` may ask at, with the box that it sets
up. -/
structure Governs (P : Problem σ α) (s : Session σ (Evolution ρ α) α) (Trial : Vec α → Prop) :
    Prop where
  admits {box : Setup α} : setup P.region s.memory.settings s.progress.point = .ok box →
    Admits ρ box s.progress.point.length Trial
  given {box : Setup α} : setup P.region s.memory.settings s.progress.point = .ok box →
    ∀ x ∈ s.memory.settings.initial.getD [s.progress.point],
      x.length = s.progress.point.length → P.region.contains x = true → Trial x

theorem leads_start (tracks : P.objective.Tracks s.progress.oracle trail)
    (governs : Governs P s Trial) :
    Leads (start P) s
      (fun (box, first) s' => setup P.region s.memory.settings s.progress.point = .ok box ∧
        ∃ made, Founds made first ∧ Breeds first s' made.reverse ∧
          Evaluates P trail Trial s' made.reverse)
      (fun _ s' => Asks trail Trial s') := by
  have h (memory : Evolution ρ α) : Evaluates P trail Trial
      ⟨s.progress.reset, s.rule.reset, memory⟩ [] := ⟨tracks.origin, nofun, nofun⟩
  unfold start
  simp only [leads_bind, leads_reset, leads_get, leads_ite, leads_throw, leads_attempt]
  refine ⟨fun _ => (h _).asks, fun _ => ?_⟩
  cases hsetup : setup P.region s.memory.settings s.progress.reset.point with
  | error e => exact (h _).asks
  | ok box =>
      obtain ⟨hsettings, -⟩ := setup_eq_ok hsetup
      simp only [leads_remember, box_eq hsettings]
      refine (leads_firstPopulation tracks (h _) (governs.admits hsetup) ?_).imp ?_
      · rw [hsettings]
        exact governs.given hsetup
      · intro made s₁ h₁
        cases hfront : bestToFront made with
        | nil => exact (h₁.congr rfl).asks
        | cons first rest =>
            have hfounds : Founds made ⟨first :: rest, first⟩ := ⟨hfront.symm, rfl⟩
            exact ⟨hsetup, made, hfounds, hfounds.breeds (List.length_map _), h₁.congr rfl⟩

/-! ## Generation after generation -/

/-- The states and sessions that passes lead to from a first generation. -/
inductive Reaches (P : Problem σ α) (box : Setup α) (first : State α)
    (s₁ : Session σ (Evolution ρ α) α) : State α → Session σ (Evolution ρ α) α → Prop where
  | first : Reaches P box first s₁ first s₁
  | next {k : Nat} {state next : State α} {s s' : Session σ (Evolution ρ α) α} {more : Bool} :
      Reaches P box first s₁ state s → pass P box k state s = (.ok (next, more), s') →
      Reaches P box first s₁ next s'

variable {I : State α → Session σ (Evolution ρ α) α → Prop}
  {stop : Failure α → Session σ (Evolution ρ α) α → Prop}

theorem Reaches.keeps {first : State α} (h : Reaches P box first s₁ state s)
    (hpass : ∀ k state s, I state s → Leads (pass P box k state) s (fun r s' => I r.1 s') stop)
    (hfirst : I first s₁) : I state s := by
  induction h with
  | first => exact hfirst
  | next _ hrun ih => exact (hpass _ _ _ ih).of_ok hrun

theorem leads_generations
    (hpass : ∀ k state s, I state s → Leads (pass P box k state) s (fun r s' => I r.1 s') stop)
    (h : I state s) (more k : Nat) : Leads (generations P box more k state) s I stop := by
  induction more generalizing k state s with
  | zero => exact h
  | succ more ih =>
      rw [generations]
      refine (hpass k state s h).bind ?_
      rintro ⟨next, continues⟩ s₁ h₁
      rw [leads_ite]
      exact ⟨fun _ => ih h₁ (k + 1), fun _ => h₁⟩

/-- A run settles for the best member of its last generation. -/
structure Settles (state : State α) (s s' : Session σ (Evolution ρ α) α) : Prop where
  oracle_eq : s'.progress.oracle = s.progress.oracle
  point_eq : s'.progress.point = state.best.values
  value_eq : s'.progress.value = some state.best.cost
  bestEver_eq : s'.memory.bestEver = some state.best

/-- What holds of the first generation and is kept by every pass holds of the generation that a
run settles for. -/
theorem leads_minimize {I : Setup α → State α → Session σ (Evolution ρ α) α → Prop}
    (hstart : Leads (start P) s (fun (box, first) s' => I box first s') stop)
    (hpass : ∀ box k state s, I box state s →
      Leads (pass P box k state) s (fun r s' => I box r.1 s') stop) :
    Leads (minimize P) s
      (fun _ s' => ∃ box state s₁, I box state s₁ ∧ Settles state s₁ s') stop := by
  unfold minimize
  refine hstart.bind ?_
  rintro ⟨box, first⟩ s₁ h₁
  rw [leads_bind, leads_get]
  refine (leads_generations (hpass box) h₁ _ 0).bind ?_
  intro state s₂ h₂
  simp only [leads_bind, leads_settle, leads_remember, leads_outcome]
  exact ⟨box, state, s₂, h₂, rfl, rfl, rfl, rfl⟩

/-- A run that ends with an outcome has settled for a generation that its first one leads to. -/
theorem minimize_reaches {o : Outcome} {s' : Session σ (Evolution ρ α) α}
    (hrun : minimize P s = (.ok o, s')) :
    ∃ box first s₁ state s₂, start P s = (.ok (box, first), s₁) ∧
      Reaches P box first s₁ state s₂ ∧ Settles state s₂ s' := by
  have hruns : Leads (minimize P) s
      (fun _ s' => ∃ box state s₂, (∃ first s₁, start P s = (.ok (box, first), s₁) ∧
        Reaches P box first s₁ state s₂) ∧ Settles state s₂ s') (fun _ _ => True) := by
    refine leads_minimize ?_ ?_
    · exact (leads_true _ _).mono_run (fun (box, first) s₁ hstart _ => ⟨first, s₁, hstart, .first⟩)
        fun _ _ _ _ => trivial
    · rintro box k state s₂ ⟨first, s₁, hstart, hreaches⟩
      exact (leads_true _ _).mono_run
        (fun (next, more) s₃ hpass _ => ⟨first, s₁, hstart, hreaches.next hpass⟩)
        fun _ _ _ _ => trivial
  obtain ⟨box, state, s₂, ⟨first, s₁, hstart, hreaches⟩, hsettles⟩ := hruns.of_ok hrun
  exact ⟨box, first, s₁, state, s₂, hstart, hreaches, hsettles⟩

/-- The run has set up its box and evaluated the members of a generation. -/
def Lives (P : Problem σ α) (trail : σ → List (Vec α) → Prop) (Trial : Vec α → Prop)
    (s : Session σ (Evolution ρ α) α) (box : Setup α) (state : State α)
    (s₁ : Session σ (Evolution ρ α) α) : Prop :=
  setup P.region s.memory.settings s.progress.point = .ok box ∧
    ∃ seen, Breeds state s₁ seen ∧ Evaluates P trail Trial s₁ seen

theorem leads_start_lives (tracks : P.objective.Tracks s.progress.oracle trail)
    (governs : Governs P s Trial) :
    Leads (start P) s (fun (box, first) s₁ => Lives P trail Trial s box first s₁)
      (fun _ s' => Asks trail Trial s') := by
  refine (leads_start tracks governs).imp ?_
  rintro ⟨box, first⟩ s₁ ⟨hsetup, made, -, h₁⟩
  exact ⟨hsetup, made.reverse, h₁⟩

theorem leads_pass_lives (tracks : P.objective.Tracks origin trail) (governs : Governs P s Trial)
    (h : Lives P trail Trial s box state s₁) (k : Nat) :
    Leads (pass P box k state) s₁ (fun r s' => Lives P trail Trial s box r.1 s')
      (fun e s' => Asks trail Trial s' ∧ Breaks P e) := by
  obtain ⟨hsetup, seen, hbreeds, h₁⟩ := h
  refine (leads_pass tracks (governs.admits hsetup) hbreeds h₁ k).imp ?_
  rintro ⟨next, more⟩ s₂ (⟨rfl, h₂⟩ | ⟨made, bred, -, rfl, h₂⟩)
  · exact ⟨hsetup, seen, h₂⟩
  · exact ⟨hsetup, made.reverse ++ seen, h₂⟩

theorem leads_minimize_governed (tracks : P.objective.Tracks s.progress.oracle trail)
    (governs : Governs P s Trial) :
    Leads (minimize P) s
      (fun _ s' => Asks trail Trial s' ∧ Trial s'.progress.point)
      (fun _ s' => Asks trail Trial s') := by
  refine (leads_minimize (leads_start_lives tracks governs) fun box k state s₁ h₁ =>
    (leads_pass_lives tracks governs h₁ k).imp_stop fun _ _ h => h.1).imp ?_
  rintro o s' ⟨box, state, s₁, ⟨-, seen, hbreeds, h₁⟩, hsettles⟩
  refine ⟨(h₁.congr hsettles.oracle_eq).asks, ?_⟩
  rw [hsettles.point_eq]
  exact h₁.trial _ hbreeds.mem_best

/-! ## Points of one dimension -/

theorem draws_bounceAll_length (lower upper anchor x : Vec α) :
    Draws (bounceAll lower upper anchor x : StateM ρ (Vec α)) fun y => y.length = x.length := by
  fun_induction (bounceAll lower upper anchor x : StateM ρ (Vec α)) with
  | case1 l lower u upper m anchor a x ih =>
      refine (draws_true _).bind fun b _ => ?_
      refine ih.bind fun y hy => draws_pure ?_
      rw [List.length_cons, List.length_cons, hy]
  | case2 => exact draws_pure rfl

theorem governs_length (P : Problem σ α) (s : Session σ (Evolution ρ α) α) :
    Governs P s (·.length = s.progress.point.length) where
  given _ _ _ hlength _ := hlength
  admits hsetup := by
    obtain ⟨-, hlower, hupper, -⟩ := setup_eq_ok hsetup
    refine ⟨id, fun _ => (draws_mapM_all fun _ _ => draws_true _).mono fun y hy => ?_, ?_⟩
    · rw [hy.1, List.length_zip, hlower, hupper, Nat.min_self]
    · intro anchor x _ hx
      unfold confine
      refine draws_ite (fun _ => ?_) fun _ => draws_pure hx
      exact (draws_bounceAll_length _ _ _ x).mono fun y hy => hy.trans hx

theorem start_eq_ok (hpoint : s.progress.point ≠ [])
    (hsetup : setup P.region s.memory.settings s.progress.point = .ok box)
    (hinitial : s.memory.settings.initial = none)
    (hcontains : P.region.contains s.progress.point = true) (hcost : ∀ e, ¬ Breaks P e) :
    ∃ first s₁, start P s = (.ok (box, first), s₁) := by
  have hempty : s.progress.point.isEmpty = false := by simpa using hpoint
  obtain ⟨hsettings, -⟩ := setup_eq_ok hsetup
  have tracks := P.objective.tracks_true s.progress.oracle
  have h (memory : Evolution ρ α) : Evaluates P (fun _ _ => True)
      (·.length = s.progress.point.length) ⟨s.progress.reset, s.rule.reset, memory⟩ [] :=
    ⟨trivial, nofun, nofun⟩
  have hruns : Leads (start P) s (fun r _ => r.1 = box) (fun _ _ => False) := by
    unfold start
    simp only [leads_bind, leads_reset, leads_get, leads_ite, leads_throw, leads_attempt,
      Progress.reset]
    refine ⟨fun hnot => by simp [hempty] at hnot, fun _ => ?_⟩
    rw [hsetup]
    simp only [leads_remember, box_eq hsettings]
    refine (leads_firstPopulation_random tracks (h _) rfl (by rw [hsettings, hinitial]) hcontains
      ((governs_length P s).admits hsetup)).mono ?_ fun e _ h => hcost e h.2
    rintro made s₁ ⟨hmade, -⟩
    cases hfront : bestToFront made with
    | nil => exact hmade ((hfront ▸ bestToFront_perm made).nil_eq).symm
    | cons first rest => rfl
  rcases hrun : start P s with ⟨answer, s₁⟩
  rw [Leads, hrun] at hruns
  cases answer with
  | ok r =>
      cases hruns
      exact ⟨r.2, s₁, rfl⟩
  | error e => exact hruns.elim

theorem minimize_eq_ok (hpoint : s.progress.point ≠ [])
    (hsetup : setup P.region s.memory.settings s.progress.point = .ok box)
    (hinitial : s.memory.settings.initial = none)
    (hcontains : P.region.contains s.progress.point = true) (hcost : ∀ e, ¬ Breaks P e) :
    ∃ o s', minimize P s = (.ok o, s') := by
  obtain ⟨first, s₁, hstart⟩ := start_eq_ok hpoint hsetup hinitial hcontains hcost
  have governs := governs_length P s
  have tracks := P.objective.tracks_true s.progress.oracle
  have hlives := (leads_start_lives tracks governs).of_ok hstart
  have hruns : Leads (minimize P) s (fun _ _ => True) (fun _ _ => False) :=
    (leads_minimize (leads_of_ok hstart hlives) fun box k state s₂ h₂ =>
      (leads_pass_lives tracks governs h₂ k).imp_stop fun e _ h => hcost e h.2).mono
      (fun _ _ _ => trivial) fun _ _ h => h
  rcases hrun : minimize P s with ⟨answer, s'⟩
  rw [Leads, hrun] at hruns
  cases answer with
  | ok o => exact ⟨o, s', rfl⟩
  | error e => exact hruns.elim

end Minima.Evolution
