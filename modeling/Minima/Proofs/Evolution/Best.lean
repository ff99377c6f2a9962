import Minima.Proofs.Evolution.Runs
import Minima.Proofs.Simplex.Lowest
import Minima.Proofs.StoppingRule
import Minima.Random.Generator

/-!
# The best member of a run

The cheapest member leads every generation, and the best of the leaders is remembered.  No
candidate is ever evaluated that costs less, since an offspring gives way to a cheaper member only.
-/

namespace Minima.Evolution

open OrderedScalar
open Simplex (terraces terraces_defined boxedTerraces)

variable {ρ σ α : Type} [Scalar α] {P : Problem σ α} {cost : Vec α → Checked α α}
  {log : σ → List (Vec α)} {trail : σ → List (Vec α) → Prop} {origin : σ} {Trial : Vec α → Prop}
  {seen population made : List (Candidate α)} {box : Setup α} {state bred : State α}
  {s : Session σ (Evolution ρ α) α} {c : Candidate α}

/-! ## The cheapest member -/

section Order

variable [OrderedScalar α]

theorem cheapest_spec {best place : Nat} {cost : α} (hcost : cost ≤ cost)
    (hdefined : ∀ c ∈ population, c.cost ≤ c.cost) :
    (cheapest best cost place population = best ∧ ∀ c ∈ population, cost ≤ c.cost) ∨
      ∃ i, ∃ h : i < population.length, cheapest best cost place population = place + i ∧
        population[i].cost ≤ cost ∧ ∀ c ∈ population, population[i].cost ≤ c.cost := by
  induction population generalizing best place cost with
  | nil => exact .inl ⟨rfl, nofun⟩
  | cons c rest ih =>
      obtain ⟨hc, hrest⟩ := List.forall_mem_cons.mp hdefined
      rw [cheapest]
      split
      · rename_i hlt
        have hle := le_of_lt hlt
        rcases ih hc hrest with ⟨heq, hall⟩ | ⟨i, hi, heq, hfirst, hall⟩
        · exact .inr ⟨0, Nat.succ_pos _, heq, hle, List.forall_mem_cons.mpr ⟨hc, hall⟩⟩
        · refine .inr ⟨i + 1, Nat.succ_lt_succ hi, by omega, le_trans hfirst hle, ?_⟩
          exact List.forall_mem_cons.mpr ⟨hfirst, hall⟩
      · rename_i hnot
        have hle := le_of_not_lt hc hcost hnot
        rcases ih hcost hrest with ⟨heq, hall⟩ | ⟨i, hi, heq, hfirst, hall⟩
        · exact .inl ⟨heq, List.forall_mem_cons.mpr ⟨hle, hall⟩⟩
        · refine .inr ⟨i + 1, Nat.succ_lt_succ hi, by omega, hfirst, ?_⟩
          exact List.forall_mem_cons.mpr ⟨le_trans hfirst hle, hall⟩

theorem bestToFront_spec (hdefined : ∀ c ∈ population, c.cost ≤ c.cost) (hc : c ∈ population) :
    ∃ front others, bestToFront population = front :: others ∧
      ∀ c ∈ population, front.cost ≤ c.cost := by
  cases population with
  | nil => cases hc
  | cons first rest =>
      obtain ⟨hfirst, hrest⟩ := List.forall_mem_cons.mp hdefined
      rw [bestToFront]
      rcases cheapest_spec hfirst hrest with ⟨heq, hall⟩ | ⟨i, hi, heq, hlt, hall⟩
      · rw [heq]
        exact ⟨first, rest, rfl, List.forall_mem_cons.mpr ⟨hfirst, hall⟩⟩
      · rw [heq, Nat.add_comm]
        dsimp only
        rw [List.getD_eq_getElem _ _ hi]
        refine ⟨rest[i], _, rfl, ?_⟩
        exact List.forall_mem_cons.mpr ⟨hlt, hall⟩

theorem survivor_le (settings : Settings α) {old offspring : Candidate α}
    (hoffspring : offspring.cost ≤ offspring.cost) :
    (survivor settings old offspring).cost ≤ offspring.cost := by
  unfold survivor
  split
  · exact le_of_lt (And.right ‹_›)
  · exact hoffspring

theorem survivor_le_of_greedy {settings : Settings α} (hgreedy : settings.greedy = true)
    {old offspring : Candidate α} (hold : old.cost ≤ old.cost)
    (hoffspring : offspring.cost ≤ offspring.cost) :
    (survivor settings old offspring).cost ≤ old.cost := by
  unfold survivor
  split
  · exact hold
  · rename_i hnot
    exact le_of_not_lt hold hoffspring fun hlt => hnot ⟨hgreedy, hlt⟩

theorem remember_le {front : Candidate α} {others : List (Candidate α)}
    (hpopulation : bred.population = front :: others) (hfront : front.cost ≤ front.cost)
    (hbest : bred.best.cost ≤ bred.best.cost) :
    bred.remember.best.cost ≤ bred.best.cost ∧ bred.remember.best.cost ≤ front.cost := by
  unfold State.remember
  rw [hpopulation]
  dsimp only
  split
  · exact ⟨le_of_lt ‹_›, hfront⟩
  · exact ⟨hbest, le_of_not_lt hfront hbest ‹_›⟩

end Order

/-! ## Survivors -/

theorem getElem_zipWith_mem {β γ δ : Type} (f : β → γ → δ) {l : List β} {l' : List γ} {i : Nat}
    (hi : i < l.length) (hi' : i < l'.length) : f l[i] l'[i] ∈ List.zipWith f l l' := by
  refine List.mem_iff_getElem.mpr ⟨i, ?_, List.getElem_zipWith⟩
  rw [List.length_zipWith]
  exact Nat.lt_min.mpr ⟨hi, hi'⟩

theorem exists_survivor_of_member (settings : Settings α)
    (hlength : made.length = population.length) (hc : c ∈ population) :
    ∃ offspring ∈ made, survivor settings c offspring ∈
      List.zipWith (survivor settings) population made := by
  obtain ⟨i, hi, rfl⟩ := List.mem_iff_getElem.mp hc
  have hi' : i < made.length := hlength ▸ hi
  exact ⟨made[i], List.getElem_mem hi', getElem_zipWith_mem _ hi hi'⟩

theorem exists_survivor_of_offspring (settings : Settings α)
    (hlength : made.length = population.length) (hc : c ∈ made) :
    ∃ old ∈ population, survivor settings old c ∈
      List.zipWith (survivor settings) population made := by
  obtain ⟨i, hi, rfl⟩ := List.mem_iff_getElem.mp hc
  have hi' : i < population.length := hlength ▸ hi
  exact ⟨population[i], List.getElem_mem hi', getElem_zipWith_mem _ hi' hi⟩

/-- No member costs less than the lowest of the next. -/
def Falls (state next : State α) : Prop :=
  ∃ c ∈ next.population, ∀ c' ∈ state.population, c.cost ≤ c'.cost

variable [OrderedScalar α]

theorem Evaluates.defined (hinfinity : (Scalar.infinity : α) ≤ Scalar.infinity)
    (h : Evaluates P trail Trial s seen) : ∀ c ∈ seen, c.cost ≤ c.cost := by
  intro c hc
  obtain ⟨o, hcost⟩ := h.cost_eq c hc
  rw [hcost]
  unfold penalized
  split
  · split
    · exact le_refl_of_isFinite ‹_›
    · exact hinfinity
  · exact hinfinity

theorem Succeeds.exists_front {settings : Settings α} (h : Succeeds settings state made bred)
    (hnonempty : state.population ≠ []) (hold : ∀ c ∈ state.population, c.cost ≤ c.cost)
    (hmade : ∀ c ∈ made, c.cost ≤ c.cost) :
    ∃ front others, bred.population = front :: others ∧ front.cost ≤ front.cost ∧
      ∀ c ∈ List.zipWith (survivor settings) state.population made, front.cost ≤ c.cost := by
  have hdefined : ∀ c ∈ List.zipWith (survivor settings) state.population made,
      c.cost ≤ c.cost := fun c hc =>
    (survivor_mem settings state.population made c hc).elim (hold c) (hmade c)
  obtain ⟨member, hmember⟩ := List.exists_mem_of_ne_nil _ hnonempty
  obtain ⟨offspring, -, hsurvivor⟩ := exists_survivor_of_member settings h.length_made hmember
  obtain ⟨front, others, hfront, hall⟩ := bestToFront_spec hdefined hsurvivor
  rw [← h.population_eq] at hfront
  exact ⟨front, others, hfront, le_refl_left (hall _ hsurvivor), hall⟩

theorem Succeeds.falls {settings : Settings α} (h : Succeeds settings state made bred)
    (hgreedy : settings.greedy = true) (hnonempty : state.population ≠ [])
    (hold : ∀ c ∈ state.population, c.cost ≤ c.cost) (hmade : ∀ c ∈ made, c.cost ≤ c.cost) :
    Falls state bred.remember := by
  obtain ⟨front, others, hpopulation, -, hfront⟩ := h.exists_front hnonempty hold hmade
  refine ⟨front, by rw [population_remember, hpopulation]; exact List.mem_cons_self, ?_⟩
  intro c hc
  obtain ⟨offspring, hoffspring, hsurvivor⟩ := exists_survivor_of_member settings h.length_made hc
  exact le_trans (hfront _ hsurvivor)
    (survivor_le_of_greedy hgreedy (hold c hc) (hmade offspring hoffspring))

theorem Succeeds.remember_le {settings : Settings α} (h : Succeeds settings state made bred)
    (hnonempty : state.population ≠ []) (hold : ∀ c ∈ state.population, c.cost ≤ c.cost)
    (hmade : ∀ c ∈ made, c.cost ≤ c.cost) (hbest : ∀ c ∈ seen, state.best.cost ≤ c.cost)
    (hmem : state.best ∈ seen) :
    ∀ c ∈ made.reverse ++ seen, bred.remember.best.cost ≤ c.cost := by
  obtain ⟨front, others, hpopulation, hdefined, hfront⟩ := h.exists_front hnonempty hold hmade
  obtain ⟨hremembered, hfrontBest⟩ :=
    Evolution.remember_le hpopulation hdefined (by rw [h.best_eq]; exact hbest _ hmem)
  rw [h.best_eq] at hremembered
  intro c hc
  rcases List.mem_append.mp hc with hc | hc
  · rw [List.mem_reverse] at hc
    obtain ⟨old, -, hsurvivor⟩ := exists_survivor_of_offspring settings h.length_made hc
    exact le_trans hfrontBest
      (le_trans (hfront _ hsurvivor) (survivor_le settings (hmade c hc)))
  · exact le_trans hremembered (hbest c hc)

/-! ## Generations -/

/-- There are `m` members of dimension `n`, all of them evaluated, and of all evaluated
candidates the best is remembered. -/
structure Ranks (P : Problem σ α) (trail : σ → List (Vec α) → Prop) (n m : Nat) (state : State α)
    (s : Session σ (Evolution ρ α) α) (seen : List (Candidate α)) : Prop where
  length_population : state.population.length = m
  breeds : Breeds state s seen
  evaluates : Evaluates P trail (·.length = n) s seen
  best_le : ∀ c ∈ seen, state.best.cost ≤ c.cost

variable [RandomSource ρ] {m n : Nat}

/-- A pass keeps the number of members and remembers the best; with greedy selection the lowest
cost does not rise. -/
theorem leads_pass_ranks (hinfinity : (Scalar.infinity : α) ≤ Scalar.infinity)
    (tracks : P.objective.Tracks origin trail) (admits : Admits ρ box n (·.length = n)) (hm : 0 < m)
    (h : Ranks P trail n m state s seen) (k : Nat) :
    Leads (pass P box k state) s
      (fun r s' => (∃ seen, Ranks P trail n m r.1 s' seen) ∧
        (box.settings.greedy = true → Falls state r.1))
      (fun _ _ => True) := by
  have hnonempty : state.population ≠ [] := by
    rw [← List.length_pos_iff, h.length_population]
    exact hm
  have hold (c : Candidate α) (hc : c ∈ state.population) : c.cost ≤ c.cost :=
    h.evaluates.defined hinfinity c (h.breeds.mem_population c hc)
  refine (leads_pass tracks admits h.breeds h.evaluates k).mono ?_ fun _ _ _ => trivial
  rintro ⟨next, more⟩ s' (⟨rfl, hbreeds, hevaluates⟩ |
    ⟨made, bred, hsucceeds, rfl, hbreeds, hevaluates⟩)
  · refine ⟨⟨seen, h.length_population, hbreeds, hevaluates, h.best_le⟩, fun _ => ?_⟩
    obtain ⟨member, hmember⟩ := List.exists_mem_of_ne_nil _ hnonempty
    obtain ⟨front, others, hfront, hall⟩ := bestToFront_spec hold hmember
    refine ⟨front, (bestToFront_perm _).mem_iff.mp ?_, hall⟩
    rw [hfront]
    exact List.mem_cons_self
  · have hmade (c : Candidate α) (hc : c ∈ made) : c.cost ≤ c.cost :=
      hevaluates.defined hinfinity c
        (List.mem_append_left _ (List.mem_reverse.mpr hc))
    refine ⟨⟨made.reverse ++ seen, ?_, hbreeds, hevaluates, ?_⟩, fun hgreedy => ?_⟩
    · rw [population_remember, hsucceeds.length_population, h.length_population]
    · exact hsucceeds.remember_le hnonempty hold hmade h.best_le h.breeds.mem_best
    · exact hsucceeds.falls hgreedy hnonempty hold hmade

/-! ## Runs -/

theorem leads_start_ranks (hinfinity : (Scalar.infinity : α) ≤ Scalar.infinity)
    {s : Session σ (Evolution ρ α) α} (tracks : P.objective.Tracks s.progress.oracle trail) :
    Leads (start P : Run σ (Evolution ρ α) α (Setup α × State α)) s
      (fun (box, first) s' =>
        setup P.region s.memory.settings s.progress.point = .ok box ∧ 0 < first.population.length ∧
        ∃ seen, Ranks P trail s.progress.point.length
          first.population.length first s' seen)
      (fun _ _ => True) := by
  refine (leads_start tracks (governs_length P s)).mono ?_ fun _ _ _ => trivial
  rintro ⟨box, first⟩ s' ⟨hsetup, made, hfounds, hbreeds, hevaluates⟩
  have hmem := hbreeds.mem_best
  have hdefined (c : Candidate α) (hc : c ∈ made) : c.cost ≤ c.cost :=
    hevaluates.defined hinfinity c (List.mem_reverse.mpr hc)
  obtain ⟨front, others, hfront, hall⟩ := bestToFront_spec hdefined (List.mem_reverse.mp hmem)
  have hpopulation : first.population = front :: others := hfounds.population_eq.trans hfront
  have hbest : front = first.best := by
    have hhead := hfounds.head_eq
    rw [hpopulation] at hhead
    exact Option.some.inj hhead
  refine ⟨hsetup, ?_, made.reverse, rfl, hbreeds, hevaluates, ?_⟩
  · rw [hpopulation]
    exact Nat.succ_pos _
  · intro c hc
    rw [← hbest]
    exact hall c (List.mem_reverse.mp hc)

theorem Reaches.ranks (hinfinity : (Scalar.infinity : α) ≤ Scalar.infinity)
    {s s₁ s₂ : Session σ (Evolution ρ α) α} (tracks : P.objective.Tracks s.progress.oracle trail)
    {first : State α} (hstart : start P s = (.ok (box, first), s₁))
    (hreaches : Reaches P box first s₁ state s₂) :
    ∃ seen, Ranks P trail s.progress.point.length
      first.population.length state s₂ seen ∧
      ∀ k next more s₃, pass P box k state s₂ = (.ok (next, more), s₃) →
        s.memory.settings.greedy = true → Falls state next := by
  obtain ⟨hsetup, hpos, hfirst⟩ := (leads_start_ranks hinfinity tracks).of_ok hstart
  obtain ⟨hsettings, -⟩ := setup_eq_ok hsetup
  have admits := (governs_length P s).admits hsetup
  have hkeeps (k : Nat) (state : State α) (t : Session σ (Evolution ρ α) α)
      (h : ∃ seen, Ranks P trail s.progress.point.length
        first.population.length state t seen) :
      Leads (pass P box k state) t
        (fun r t' => ∃ seen, Ranks P trail s.progress.point.length
          first.population.length r.1 t' seen) (fun _ _ => True) := by
    obtain ⟨seen, hranks⟩ := h
    exact (leads_pass_ranks hinfinity tracks admits hpos hranks k).mono (fun _ _ h => h.1)
      fun _ _ h => h
  obtain ⟨seen, hranks⟩ := hreaches.keeps hkeeps hfirst
  refine ⟨seen, hranks, fun k next more s₃ hpass hgreedy => ?_⟩
  rw [← hsettings] at hgreedy
  exact ((leads_pass_ranks hinfinity tracks admits hpos hranks k).of_ok hpass).2 hgreedy

theorem minimize_ranks (hinfinity : (Scalar.infinity : α) ≤ Scalar.infinity)
    {s s' : Session σ (Evolution ρ α) α} (tracks : P.objective.Tracks s.progress.oracle trail)
    {o : Outcome} (hrun : minimize P s = (.ok o, s')) :
    ∃ box first s₁ state s₂ seen, start P s = (.ok (box, first), s₁) ∧
      Reaches P box first s₁ state s₂ ∧ Settles state s₂ s' ∧
      Ranks P trail s.progress.point.length first.population.length state s₂ seen := by
  obtain ⟨box, first, s₁, state, s₂, hstart, hreaches, hsettles⟩ := minimize_reaches hrun
  obtain ⟨seen, hranks, -⟩ := hreaches.ranks hinfinity tracks hstart
  exact ⟨box, first, s₁, state, s₂, seen, hstart, hreaches, hsettles, hranks⟩

/-- For a cost that depends on the point alone, with `penalized` for what it counts as: every
generation has as many members as the first, all of the dimension of the start and with the cost
of their point, and with greedy selection the lowest cost never rises from one generation to the
next.  A run that ends with an outcome returns a point at which it has asked and the cost of it,
the best member of the last generation.  No cost that it asked for is lower. -/
theorem minimize_best_ever (hinfinity : (Scalar.infinity : α) ≤ Scalar.infinity)
    (logs : P.objective.Logs log) (hcost : ∀ x o, (P.objective.value x o).1 = cost x)
    (s : Session σ (Evolution ρ α) α) :
    (∀ box first s₁ state s₂, start P s = (.ok (box, first), s₁) →
      Reaches P box first s₁ state s₂ →
        state.population.length = first.population.length ∧
        (∀ c ∈ state.population, c.values.length = s.progress.point.length ∧
          c.cost = penalized (cost c.values)) ∧
        (s.memory.settings.greedy = true → ∀ k next more s₃,
          pass P box k state s₂ = (.ok (next, more), s₃) → Falls state next)) ∧
    ∀ o s', minimize P s = (.ok o, s') →
      ∃ box first s₁ state s₂ requests, start P s = (.ok (box, first), s₁) ∧
        Reaches P box first s₁ state s₂ ∧ s'.memory.bestEver = some state.best ∧
        s'.progress.point = state.best.values ∧ s'.progress.value = some state.best.cost ∧
        log s'.progress.oracle = requests ++ log s.progress.oracle ∧
        state.best.values ∈ requests ∧ state.best.cost = penalized (cost state.best.values) ∧
        ∀ x ∈ requests, state.best.cost ≤ penalized (cost x) := by
  constructor
  · intro box first s₁ state s₂ hstart hreaches
    obtain ⟨seen, hranks, hfalls⟩ := hreaches.ranks hinfinity (logs.tracks _) hstart
    refine ⟨hranks.length_population, fun c hc => ?_,
      fun hgreedy k next more s₃ hpass => hfalls k next more s₃ hpass hgreedy⟩
    have hseen := hranks.breeds.mem_population c hc
    exact ⟨hranks.evaluates.trial c hseen, hranks.evaluates.cost_eq_penalized hcost hseen⟩
  · intro o s' hrun
    obtain ⟨box, first, s₁, state, s₂, seen, hstart, hreaches, hsettles, hranks⟩ :=
      minimize_ranks hinfinity (logs.tracks _) hrun
    have hmem := hranks.breeds.mem_best
    refine ⟨box, first, s₁, state, s₂, seen.map (·.values), hstart, hreaches,
      hsettles.bestEver_eq, hsettles.point_eq, hsettles.value_eq, ?_, List.mem_map_of_mem hmem,
      hranks.evaluates.cost_eq_penalized hcost hmem, fun x hx => ?_⟩
    · rw [hsettles.oracle_eq]
      exact hranks.evaluates.requests
    · obtain ⟨c, hc, rfl⟩ := List.mem_map.mp hx
      rw [← hranks.evaluates.cost_eq_penalized hcost hc]
      exact hranks.best_le c hc

/-! ## A run on terraces -/

def fourMembers : Session (List (Evaluation Float)) (Evolution Generator Float) Float where
  progress := .start [] [0.25]
  rule := ⟨3, 2, 1e-8, 1e-8, 1e-8, .running, 0, Nat.one_lt_two, StoppingRule.two_le_three⟩
  memory := {
    settings := { Settings.usual with members := 4, mutation := .rand1Standard }
    source := .counter 0 }

def terracesCost (x : Vec Float) : Float :=
  penalized (.ok ((terraces 0.3 0.6).valueOrZero x))

theorem minimize_best_ever_terraces :
    (∃ box first s₁ next more s₂, start boxedTerraces fourMembers = (.ok (box, first), s₁) ∧
      pass boxedTerraces box 0 first s₁ = (.ok (next, more), s₂) ∧ Falls first next ∧
      next.population.length = first.population.length ∧
      ∀ c ∈ next.population, c.values.length = 1 ∧ c.cost = terracesCost c.values) ∧
    ∃ o s' best, minimize boxedTerraces fourMembers = (.ok o, s') ∧
      s'.memory.bestEver = some best ∧ s'.progress.point = best.values ∧
      s'.progress.value = some best.cost ∧ best.cost = terracesCost best.values ∧
      s'.progress.oracle.length = 16 ∧
      ∀ x ∈ s'.progress.oracle.map Cost.point, best.cost ≤ terracesCost x := by
  have hcost (x : Vec Float) (o : List (Evaluation Float)) :
      (boxedTerraces.objective.value x o).1 =
        .ok ((terraces 0.3 0.6).valueOrZero x) := rfl
  obtain ⟨hgenerations, hended⟩ :=
    minimize_best_ever (by decide +kernel) (Cost.objective_logs _) hcost fourMembers
  constructor
  · have hruns : ((start boxedTerraces >>= fun r => pass boxedTerraces r.1 0 r.2)
        fourMembers).1.toOption.isSome = true := by
      decide +kernel
    rcases hpasses : (start boxedTerraces >>= fun r => pass boxedTerraces r.1 0 r.2) fourMembers
      with ⟨answer, s₂⟩
    rw [hpasses] at hruns
    cases answer with
    | error e => cases hruns
    | ok r =>
        obtain ⟨⟨box, first⟩, s₁, hstart, hpass⟩ := bind_eq_ok hpasses
        obtain ⟨-, -, hfalls⟩ := hgenerations box first s₁ first s₁ hstart .first
        obtain ⟨hlength, hmembers, -⟩ := hgenerations box first s₁ _ _ hstart (.next .first hpass)
        exact ⟨box, first, s₁, r.1, r.2, s₂, hstart, hpass, hfalls rfl 0 _ _ _ hpass, hlength,
          hmembers⟩
  · have hrun : (minimize boxedTerraces fourMembers).1.toOption.isSome = true ∧
        (minimize boxedTerraces fourMembers).2.progress.oracle.length = 16 := by
      decide +kernel
    rcases hanswer : minimize boxedTerraces fourMembers with ⟨answer, s'⟩
    rw [hanswer] at hrun
    cases answer with
    | error e => cases hrun.1
    | ok o =>
        obtain ⟨-, -, -, state, -, requests, -, -, hbest, hpoint, hvalue, hlog, -, hcosts,
          hleast⟩ :=
          hended o s' hanswer
        rw [fourMembers, Progress.start, List.map_nil, List.append_nil] at hlog
        refine ⟨o, s', state.best, rfl, hbest, hpoint, hvalue, hcosts, hrun.2, fun x hx => ?_⟩
        exact hleast x (hlog ▸ hx)

end Minima.Evolution
