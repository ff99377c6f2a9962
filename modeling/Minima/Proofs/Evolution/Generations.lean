import Mathlib.Data.List.GetD
import Mathlib.Data.List.Perm.Basic
import Minima.Proofs.Evolution.Mutation
import Minima.Proofs.Evolution.Upheld

/-!
# Generations

What one pass does to a population: each member is followed by itself or by its offspring, and
the cheapest is brought to the front.  The evaluated candidates are listed beside the run, the
last one first, and the members of every generation are among them.
-/

namespace Minima.Evolution

variable {ρ σ α : Type} [Scalar α] {P : Problem σ α} {origin : σ}
  {trail : σ → List (Vec α) → Prop} {Trial : Vec α → Prop} {seen : List (Candidate α)}
  {box : Setup α}
  {n : Nat} {state : State α} {s : Session σ (Evolution ρ α) α} {x : Vec α}

/-! ## The order of a population -/

theorem bestToFront_perm (population : List (Candidate α)) :
    (bestToFront population).Perm population := by
  cases population with
  | nil => exact .refl _
  | cons first rest =>
      rw [bestToFront]
      split
      · exact .refl _
      · rename_i k _
        by_cases hk : k < rest.length
        · rw [List.getD_eq_getElem _ _ hk]
          have hset := List.set_perm_cons_eraseIdx hk first
          have herase := List.getElem_cons_eraseIdx_perm hk
          exact (hset.cons _).trans ((List.Perm.swap _ _ _).trans (herase.cons _))
        · rw [List.getD_eq_default _ _ (Nat.not_lt.mp hk),
            List.set_eq_of_length_le (Nat.not_lt.mp hk)]

theorem survivor_mem (c : Settings α) (population made : List (Candidate α)) :
    ∀ a ∈ List.zipWith (survivor c) population made, a ∈ population ∨ a ∈ made := by
  intro a ha
  obtain ⟨old, hold, offspring, hoffspring, rfl⟩ := exists_of_mem_zipWith ha
  unfold survivor
  split
  · exact .inl hold
  · exact .inr hoffspring

/-! ## Sessions -/

/-- The cost of a candidate: an answer that is no finite number counts as infinite. -/
def penalized : Checked α α → α
  | .ok cost => if Scalar.isFinite cost then cost else Scalar.infinity
  | .error _ => Scalar.infinity

/-- The run has evaluated `seen`, the last one first, at points of the given kind and nowhere
else. -/
structure Evaluates (P : Problem σ α) (trail : σ → List (Vec α) → Prop) (Trial : Vec α → Prop)
    (s : Session σ (Evolution ρ α) α) (seen : List (Candidate α)) : Prop where
  requests : trail s.progress.oracle (seen.map (·.values))
  trial : ∀ c ∈ seen, Trial c.values
  cost_eq : ∀ c ∈ seen, ∃ o, c.cost = penalized (P.objective.value c.values o).1

def Asks (trail : σ → List (Vec α) → Prop) (Trial : Vec α → Prop)
    (s : Session σ (Evolution ρ α) α) : Prop :=
  ∃ requests, trail s.progress.oracle requests ∧ ∀ x ∈ requests, Trial x

theorem Evaluates.asks (h : Evaluates P trail Trial s seen) : Asks trail Trial s := by
  refine ⟨_, h.requests, fun x hx => ?_⟩
  obtain ⟨c, hc, rfl⟩ := List.mem_map.mp hx
  exact h.trial c hc

theorem Evaluates.congr {s' : Session σ (Evolution ρ α) α}
    (h : Evaluates P trail Trial s seen)
    (horacle : s'.progress.oracle = s.progress.oracle) :
    Evaluates P trail Trial s' seen :=
  ⟨horacle ▸ h.requests, h.trial, h.cost_eq⟩

theorem Evaluates.cost_eq_penalized {cost : Vec α → Checked α α}
    (hcost : ∀ x o, (P.objective.value x o).1 = cost x) (h : Evaluates P trail Trial s seen)
    {c : Candidate α} (hc : c ∈ seen) : c.cost = penalized (cost c.values) := by
  obtain ⟨o, hasked⟩ := h.cost_eq c hc
  rw [hasked, hcost]

def Breaks (P : Problem σ α) (e : Failure α) : Prop :=
  (∀ cause, e ≠ .error cause) ∧ ∃ x o, (P.objective.value x o).1 = .error e

theorem leads_evaluate (tracks : P.objective.Tracks origin trail)
    (h : Evaluates P trail Trial s seen) (hx : Trial x) :
    Leads (evaluate P x) s
      (fun c s' => c.values = x ∧ Evaluates P trail Trial s' (c :: seen))
      (fun e s' => Asks trail Trial s' ∧ Breaks P e) := by
  -- What is known once a candidate at `x` has the cost that the answer comes to.
  have hseen {s' : Session σ (Evolution ρ α) α} {cost : α}
      (horacle : s'.progress.oracle = (P.objective.value x s.progress.oracle).2)
      (hcost : cost = penalized (P.objective.value x s.progress.oracle).1) :
      Evaluates P trail Trial s' (⟨x, cost⟩ :: seen) :=
    ⟨horacle ▸ tracks.value x h.requests, List.forall_mem_cons.mpr ⟨hx, h.trial⟩,
      List.forall_mem_cons.mpr ⟨⟨_, hcost⟩, h.cost_eq⟩⟩
  unfold Leads evaluate
  rw [work_value_apply]
  cases hanswer : (P.objective.value x s.progress.oracle).1 with
  | ok v => exact ⟨rfl, hseen rfl (by rw [hanswer]; rfl)⟩
  | error e =>
      cases e with
      | error e => exact ⟨rfl, hseen rfl (by rw [hanswer]; rfl)⟩
      | sizeMismatch => exact ⟨(hseen rfl rfl).asks, nofun, x, _, hanswer⟩
      | refused r => exact ⟨(hseen rfl rfl).asks, nofun, x, _, hanswer⟩

theorem leads_draw {β : Type} {d : StateM ρ β} {good : β → Prop}
    {stop : Failure α → Session σ (Evolution ρ α) α → Prop} (hd : Draws d good)
    (h : Evaluates P trail Trial s seen) :
    Leads (draw d) s (fun b s' => good b ∧ Evaluates P trail Trial s' seen) stop :=
  ⟨hd _, h.congr rfl⟩

variable [RandomSource ρ]

/-- The points that are drawn in the box, and those that are confined to it at an anchor of the
kind, are of one kind, which fixes their dimension. -/
structure Admits (ρ : Type) [RandomSource ρ] (box : Setup α) (n : Nat) (Trial : Vec α → Prop) :
    Prop where
  length_eq {x : Vec α} : Trial x → x.length = n
  random {x : Vec α} : Trial x → Draws (randomPoint box : StateM ρ (Vec α)) Trial
  confine {anchor x : Vec α} : Trial anchor → x.length = n →
    Draws (confine box anchor x : StateM ρ (Vec α)) Trial

omit [Scalar α] [RandomSource ρ] in
theorem length_cross (mask : List Bool) (mutant member : Vec α) :
    (cross mask mutant member).length = mutant.length := by
  fun_induction cross mask mutant member with
  | case1 m mask a mutant b member ih => rw [List.length_cons, List.length_cons, ih]
  | case2 => rfl

theorem leads_select (tracks : P.objective.Tracks origin trail) (admits : Admits ρ box n Trial)
    {population : List (Candidate α)} {mutants anchors : List (Vec α)} {masks : List (List Bool)}
    (hmutants : mutants.length = population.length) (hanchors : anchors.length = population.length)
    (hmasks : masks.length = population.length) (hlength : ∀ x ∈ mutants, x.length = n)
    (htrial : ∀ x ∈ anchors, Trial x) (h : Evaluates P trail Trial s seen) :
    Leads (select P box population mutants anchors masks) s
      (fun next s' => ∃ made, made.length = population.length ∧
        next = List.zipWith (survivor box.settings) population made ∧
        Evaluates P trail Trial s' (made.reverse ++ seen))
      (fun e s' => Asks trail Trial s' ∧ Breaks P e) := by
  induction population generalizing mutants anchors masks s seen with
  | nil =>
      rw [select.eq_def]
      exact ⟨[], rfl, rfl, h⟩
  | cons old population ih =>
      obtain ⟨mutant, mutants, rfl⟩ := List.exists_cons_of_length_eq_add_one hmutants
      obtain ⟨anchor, anchors, rfl⟩ := List.exists_cons_of_length_eq_add_one hanchors
      obtain ⟨mask, masks, rfl⟩ := List.exists_cons_of_length_eq_add_one hmasks
      obtain ⟨hmutant, hlength⟩ := List.forall_mem_cons.mp hlength
      obtain ⟨hanchor, htrial⟩ := List.forall_mem_cons.mp htrial
      rw [select]
      have hcross : (cross mask mutant old.values).length = n := by rw [length_cross, hmutant]
      refine (leads_draw (admits.confine hanchor hcross) h).bind ?_
      rintro x s₁ ⟨hx, h₁⟩
      refine (leads_evaluate tracks h₁ hx).bind ?_
      rintro offspring s₂ ⟨-, h₂⟩
      refine (ih (Nat.succ.inj hmutants) (Nat.succ.inj hanchors) (Nat.succ.inj hmasks) hlength
        htrial h₂).bind ?_
      rintro next s₃ ⟨made, hmade, rfl, h₃⟩
      refine ⟨offspring :: made, by rw [List.length_cons, hmade, List.length_cons], rfl, ?_⟩
      rwa [List.reverse_cons, List.append_assoc]

/-! ## Passes -/

/-- The members of a generation and the best member have been evaluated, and there is a weight
for each member. -/
structure Breeds (state : State α) (s : Session σ (Evolution ρ α) α) (seen : List (Candidate α)) :
    Prop where
  length_weights : s.memory.weights.length = state.population.length
  mem_population : ∀ c ∈ state.population, c ∈ seen
  mem_best : state.best ∈ seen

/-- The next generation is bred with the offspring `made`, in the order of the members. -/
structure Succeeds (c : Settings α) (state : State α) (made : List (Candidate α))
    (bred : State α) : Prop where
  length_made : made.length = state.population.length
  population_eq : bred.population =
    bestToFront (List.zipWith (survivor c) state.population made)
  best_eq : bred.best = state.best

theorem Succeeds.length_population {c : Settings α} {made : List (Candidate α)} {bred : State α}
    (h : Succeeds c state made bred) : bred.population.length = state.population.length := by
  rw [h.population_eq, (bestToFront_perm _).length_eq, List.length_zipWith, h.length_made,
    Nat.min_self]

@[simp]
theorem population_remember (state : State α) : state.remember.population = state.population := by
  unfold State.remember
  grind

theorem best_remember (state : State α) :
    state.remember.best = state.best ∨ state.remember.best ∈ state.population := by
  unfold State.remember
  grind

omit [Scalar α] [RandomSource ρ] in
theorem Breeds.congr {s' : Session σ (Evolution ρ α) α} (h : Breeds state s seen)
    (hmemory : s'.memory = s.memory) : Breeds state s' seen :=
  ⟨by rw [hmemory, h.length_weights], h.mem_population, h.mem_best⟩

omit [RandomSource ρ] in
theorem Breeds.remember {c : Settings α} {made : List (Candidate α)} {bred : State α}
    {s' : Session σ (Evolution ρ α) α} (h : Breeds state s seen)
    (hsucceeds : Succeeds c state made bred)
    (hweights : s'.memory.weights.length = s.memory.weights.length) :
    Breeds bred.remember s' (made.reverse ++ seen) := by
  have hpopulation : ∀ a ∈ bred.population, a ∈ made.reverse ++ seen := by
    intro a ha
    rw [hsucceeds.population_eq, (bestToFront_perm _).mem_iff] at ha
    rw [List.mem_append, List.mem_reverse]
    exact (survivor_mem c state.population made a ha).symm.imp id (h.mem_population a)
  constructor
  · rw [hweights, h.length_weights, population_remember, hsucceeds.length_population]
  · rwa [population_remember]
  · rcases best_remember bred with hbest | hbest
    · rw [hbest, hsucceeds.best_eq]
      exact List.mem_append_right _ h.mem_best
    · exact hpopulation _ hbest

theorem draws_drawMasks (c : Settings α) (population : List (Candidate α))
    (probabilities : Vec α) :
    Draws (drawMasks c population probabilities : StateM ρ (Vec α × List (List Bool)))
      fun (_, masks) => masks.length = population.length := by
  unfold drawMasks
  refine (draws_true _).bind fun crossover _ => ?_
  exact (draws_mapM_all fun _ _ => draws_true _).bind fun masks hmasks =>
    draws_pure hmasks.1

theorem leads_nextGeneration (tracks : P.objective.Tracks origin trail)
    (admits : Admits ρ box n Trial)
    (hbreeds : Breeds state s seen) (h : Evaluates P trail Trial s seen) :
    Leads (nextGeneration P box state) s
      (fun bred s' => ∃ made, Succeeds box.settings state made bred ∧
        Breeds bred.remember s' (made.reverse ++ seen) ∧
        Evaluates P trail Trial s' (made.reverse ++ seen))
      (fun e s' => Asks trail Trial s' ∧ Breaks P e) := by
  have htrial : ∀ x ∈ state.best.values :: state.population.map (·.values), Trial x := by
    intro x hx
    rcases List.mem_cons.mp hx with rfl | hx
    · exact h.trial _ hbreeds.mem_best
    · obtain ⟨c, hc, rfl⟩ := List.mem_map.mp hx
      exact h.trial c (hbreeds.mem_population c hc)
  have hbest : state.best.values.length = n := admits.length_eq (htrial _ List.mem_cons_self)
  have hold : ∀ x ∈ state.population.map (·.values), x.length = state.best.values.length :=
    fun x hx => (admits.length_eq (htrial x (List.mem_cons_of_mem _ hx))).trans hbest.symm
  have hweights : s.memory.weights.length = (state.population.map (·.values)).length := by
    rw [List.length_map, hbreeds.length_weights]
  unfold nextGeneration
  dsimp only
  rw [leads_bind, leads_get]
  refine (leads_draw (draws_mutate box.settings hold hweights) h).bind ?_
  rintro ⟨made, weights⟩ s₁ ⟨⟨hfits, hadapted⟩, h₁⟩
  have hmutants := hfits.length_mutants
  have hanchors := hfits.length_anchors
  rw [List.length_map] at hmutants hanchors
  refine (leads_draw (draws_drawMasks box.settings state.population _) h₁).bind ?_
  rintro ⟨probabilities, masks⟩ s₂ ⟨hmasks, h₂⟩
  rw [leads_bind, leads_remember, leads_bind]
  have h₂' : Evaluates P trail Trial
      { s₂ with memory := { s₂.memory with weights, probabilities } } seen := h₂.congr rfl
  refine ((leads_select tracks admits hmutants hanchors hmasks
    (fun x hx => (hfits.length_mutant x hx).trans hbest)
    (fun x hx => htrial x (hfits.anchor_mem x hx)) h₂').and
    (leads_select_adapted box _ _ _ _ _)).mono ?_ fun _ _ h => h.1
  rintro population s₃ ⟨⟨offspring, hoffspring, rfl, h₃⟩, hsame, -⟩
  have hsucceeds : Succeeds box.settings state offspring { state with
      population :=
        bestToFront (List.zipWith (survivor box.settings) state.population offspring) } :=
    ⟨hoffspring, rfl, rfl⟩
  exact ⟨offspring, hsucceeds, hbreeds.remember hsucceeds (by rw [hsame, hadapted]), h₃⟩

theorem leads_pass (tracks : P.objective.Tracks origin trail) (admits : Admits ρ box n Trial)
    (hbreeds : Breeds state s seen) (h : Evaluates P trail Trial s seen) (k : Nat) :
    Leads (pass P box k state) s
      (fun r s' => (r.1 = state ∧ Breeds state s' seen ∧ Evaluates P trail Trial s' seen) ∨
        ∃ made bred, Succeeds box.settings state made bred ∧ r.1 = bred.remember ∧
          Breeds bred.remember s' (made.reverse ++ seen) ∧
          Evaluates P trail Trial s' (made.reverse ++ seen))
      (fun e s' => Asks trail Trial s' ∧ Breaks P e) := by
  unfold pass
  rw [leads_bind, leads_check, leads_ite]
  have hrule (rule : StoppingRule α) :
      Breeds state { s with rule } seen ∧ Evaluates P trail Trial { s with rule } seen :=
    ⟨hbreeds.congr rfl, h.congr rfl⟩
  refine ⟨fun _ => .inl ⟨rfl, hrule _⟩, fun _ => ?_⟩
  refine (leads_nextGeneration tracks admits (hrule _).1 (hrule _).2).bind ?_
  rintro bred s₁ ⟨made, hsucceeds, hnext, h₁⟩
  exact .inr ⟨made, bred, hsucceeds, rfl, hnext.congr rfl, h₁.congr rfl⟩

end Minima.Evolution
