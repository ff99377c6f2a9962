import Minima.Proofs.Evolution.Box
import Minima.Proofs.Evolution.Failures

/-!
# Bounds of the settings

Bounds of the settings take the place of those of the region.  The first members are not compared
with them.  An offspring beyond a bound is drawn between that bound and its anchor, so it stays
among the bounds and the first members, and leaves the bounds where a first member does.
-/

namespace Minima.Evolution

variable {ρ σ : Type} [RandomSource ρ] {P : Problem σ ℝ} {s : Session σ (Evolution ρ ℝ) ℝ}
  {lower upper low high : Vec ℝ}

theorem governs_overrides (hbounds : s.memory.settings.applyBounds = true)
    (hlower : s.memory.settings.lower = some lower)
    (hupper : s.memory.settings.upper = some upper) (hle : List.Forall₂ (· ≤ ·) lower upper)
    (hlow : List.Forall₂ (· ≤ ·) low lower) (hhigh : List.Forall₂ (· ≤ ·) upper high)
    (hgiven : ∀ x ∈ s.memory.settings.initial.getD [s.progress.point],
      x.length = s.progress.point.length → P.region.contains x = true → Within low high x) :
    Governs P s (Within low high) where
  given _ := hgiven
  admits {box} hsetup := by
    obtain ⟨hsettings, hlength, -, hupperBound, hlowerBound⟩ := setup_eq_ok hsetup
    obtain rfl : lower = box.lower := by simpa [hlower] using hlowerBound
    obtain rfl : upper = box.upper := by simpa [hupper] using hupperBound
    have hlowerWithin : Within low high box.lower := ⟨hlow, Within.le ⟨hle, hhigh⟩⟩
    have hupperWithin : Within low high box.upper := ⟨Within.le ⟨hlow, hle⟩, hhigh⟩
    constructor
    · intro x hx
      rw [← hx.1.length_eq, hlow.length_eq, hlength]
    · exact fun _ => (draws_randomPoint hle).mono fun y hy => hy.mono hlowerWithin hupperWithin
    · intro anchor x hanchor hx
      unfold confine
      rw [hsettings, if_pos hbounds]
      exact draws_bounceAll hlowerWithin hupperWithin hanchor (hx.trans hlength.symm)

/-- In exact arithmetic a run with bounds of its own asks for costs in every box that holds the
bounds and the first members, and returns a point of it. -/
theorem minimize_within_overrides {log : σ → List (Vec ℝ)} (logs : P.objective.Logs log)
    (hbounds : s.memory.settings.applyBounds = true)
    (hlower : s.memory.settings.lower = some lower)
    (hupper : s.memory.settings.upper = some upper) (hle : List.Forall₂ (· ≤ ·) lower upper)
    (hlow : List.Forall₂ (· ≤ ·) low lower) (hhigh : List.Forall₂ (· ≤ ·) upper high)
    (hgiven : ∀ x ∈ s.memory.settings.initial.getD [s.progress.point],
      x.length = s.progress.point.length → P.region.contains x = true → Within low high x) :
    ∃ requests, log (minimize P s).2.progress.oracle = requests ++ log s.progress.oracle ∧
      (∀ x ∈ requests, Within low high x) ∧
      ∀ o s', minimize P s = (.ok o, s') → Within low high s'.progress.point := by
  have hruns := leads_minimize_governed (logs.tracks _)
    (governs_overrides hbounds hlower hupper hle hlow hhigh hgiven)
  obtain ⟨requests, hlog, hrequests⟩ := (hruns.mono (fun _ _ h => h.1) fun _ _ h => h).final
  exact ⟨requests, hlog, hrequests, fun o s' hrun => (hruns.of_ok hrun).2⟩

/-! ## A start outside the bounds -/

noncomputable def around : Constraint ℝ := .boundary (-10) 10

noncomputable def outsider : Session (List (Evaluation ℝ)) (Evolution Generator ℝ) ℝ where
  progress := .start [] [5]
  rule := ⟨3, 2, 1e-8, 1e-8, 1e-8, .running, 0, Nat.one_lt_two, StoppingRule.two_le_three⟩
  memory := {
    settings := { Settings.usual with
      members := 1, crossoverProbability := 0, lower := some [0], upper := some [1] }
    source := .counter 0 }

theorem setup_outsider :
    setup around.region outsider.memory.settings [5] =
      .ok ⟨outsider.memory.settings, [0], [1]⟩ :=
  setup_real rfl rfl rfl rfl

theorem contains_around : around.contains [(5 : ℝ)] = true := by
  norm_num [around, Constraint.contains]

theorem minimize_eq_ok_outsider :
    ∃ o s', minimize ⟨bowl.objective, around.region⟩ outsider = (.ok o, s') := by
  have hcost (e : Failure ℝ) : ¬ Breaks ⟨bowl.objective, around.region⟩ e := by
    rintro ⟨-, x, o, herror⟩
    cases herror
  exact minimize_eq_ok (List.cons_ne_nil _ _) setup_outsider rfl
    contains_around hcost

theorem minimize_within_overrides_outsider :
    ∃ o s', minimize ⟨bowl.objective, around.region⟩ outsider = (.ok o, s') ∧
      (∀ x ∈ s'.progress.oracle.map Cost.point, Within [0] [5] x) ∧
      Within [0] [5] s'.progress.point := by
  have hle : List.Forall₂ (· ≤ ·) [(0 : ℝ)] [1] := .cons zero_le_one .nil
  have hlow : List.Forall₂ (· ≤ ·) [(0 : ℝ)] [0] := List.forall₂_refl _
  have hhigh : List.Forall₂ (· ≤ ·) [(1 : ℝ)] [5] := .cons (by norm_num) .nil
  have hgiven : ∀ x ∈ outsider.memory.settings.initial.getD [outsider.progress.point],
      x.length = outsider.progress.point.length → around.region.contains x = true →
        Within [0] [5] x := by
    intro x hx _ _
    obtain rfl : x = [5] := List.mem_singleton.mp hx
    exact ⟨.cons (by norm_num) .nil, .cons le_rfl .nil⟩
  obtain ⟨o, s', hrun⟩ := minimize_eq_ok_outsider
  obtain ⟨requests, hlog, hrequests, hpoint⟩ :=
    minimize_within_overrides (P := ⟨bowl.objective, around.region⟩) (s := outsider)
      (Cost.objective_logs bowl) rfl rfl rfl hle hlow hhigh hgiven
  rw [hrun, outsider, Progress.start, List.map_nil, List.append_nil] at hlog
  exact ⟨o, s', hrun, fun x hx => hrequests x (hlog ▸ hx), hpoint o s' hrun⟩

def Continues (earlier : List (Vec ℝ))
    (s : Session (List (Evaluation ℝ)) (Evolution Generator ℝ) ℝ) : Prop :=
  ∃ later, s.progress.oracle.map Cost.point = later ++ earlier

theorem leads_evaluate_bowl (x : Vec ℝ)
    (s : Session (List (Evaluation ℝ)) (Evolution Generator ℝ) ℝ) :
    Leads (evaluate ⟨bowl.objective, around.region⟩ x) s
      (fun c s' => c.values = x ∧ s'.progress.oracle.map Cost.point =
        x :: s.progress.oracle.map Cost.point ∧ s'.rule = s.rule) (fun _ _ => False) :=
  ⟨rfl, rfl, rfl⟩

theorem endures_continues (earlier : List (Vec ℝ)) :
    Endures ⟨bowl.objective, around.region⟩ (Continues earlier) (fun _ _ => False) where
  evaluate x s := by
    rintro ⟨later, hs⟩
    refine (leads_evaluate_bowl x s).imp ?_
    rintro c s' ⟨-, hs', -⟩
    exact ⟨x :: later, by rw [hs', hs, List.cons_append]⟩
  source _ h := h

theorem upholds_pass_continues (earlier : List (Vec ℝ)) (box : Setup ℝ) (k : Nat)
    (state : State ℝ) :
    Upholds (Continues earlier) (fun _ _ => False)
      (pass ⟨bowl.objective, around.region⟩ box k state) := by
  refine Upholds.bind (fun _ h => h) fun _ => .ite (upholds_pure _) ?_
  refine (upholds_nextGeneration (endures_continues earlier) (fun _ h => h) box state).bind
    fun _ => ?_
  exact Upholds.bind (fun _ h => h) fun _ => upholds_pure _

/-- The only member has been evaluated at the start. -/
structure Alone (first : State ℝ)
    (s : Session (List (Evaluation ℝ)) (Evolution Generator ℝ) ℝ) : Prop where
  population : ∃ cost, first.population = [⟨[5], cost⟩] ∧ first.best = ⟨[5], cost⟩
  length_weights : s.memory.weights.length = 1
  probabilities : s.memory.probabilities = [0]
  requests : s.progress.oracle.map Cost.point = [[5]]

theorem leads_start_outsider :
    Leads (start ⟨bowl.objective, around.region⟩) outsider
      (fun (box, first) s' => box = ⟨outsider.memory.settings, [0], [1]⟩ ∧
        s'.rule = outsider.rule.reset ∧ Alone first s') (fun _ _ => False) := by
  have hmembers (memory : Evolution Generator ℝ) : Leads
      (firstPopulation ⟨bowl.objective, around.region⟩ ⟨outsider.memory.settings, [0], [1]⟩)
      ⟨outsider.progress.reset, outsider.rule.reset, memory⟩
      (fun made s' => (∃ cost, made = [⟨[5], cost⟩]) ∧ s'.rule = outsider.rule.reset ∧
        s'.progress.oracle.map Cost.point = [[5]]) (fun _ _ => False) := by
    unfold firstPopulation
    rw [leads_bind, leads_get]
    change Leads (if (!around.contains [5]) = true then _ else _) _ _ _
    rw [contains_around]
    refine (leads_evaluate_bowl [5] _).bind ?_
    rintro c s' ⟨hc, hrequests, hrule⟩
    exact ⟨⟨c.cost, by rw [← hc]⟩, hrule, hrequests⟩
  unfold start
  simp only [leads_bind, leads_reset, leads_get, leads_ite, leads_throw, leads_attempt]
  refine ⟨fun h => by simp [outsider, Progress.reset, Progress.start] at h, fun _ => ?_⟩
  rw [show outsider.progress.reset.point = [5] from rfl, setup_outsider]
  refine (hmembers _).imp ?_
  rintro made s' ⟨⟨cost, rfl⟩, hrule, hrequests⟩
  exact ⟨rfl, hrule, ⟨cost, rfl, rfl⟩, rfl, rfl, hrequests⟩

theorem draws_drawMasks_outsider (c : Candidate ℝ) :
    Draws (drawMasks outsider.memory.settings [c] [0] : StateM Generator _)
      fun (_, masks) => masks = [[false]] := by
  have hkept : Draws (pure [0] : StateM Generator (List ℝ)) (· = [0]) := draws_pure rfl
  unfold drawMasks
  refine hkept.bind ?_
  rintro _ rfl
  have hmask : Draws ([(0 : ℝ)].mapM fun p => do return decide ((← Random.uniform) < p) :
      StateM Generator (List Bool)) (· = [false]) := by
    refine (draws_mapM_all (Q := (· = false)) fun p hp => ?_).mono fun mask hmask => ?_
    · obtain rfl : p = 0 := List.mem_singleton.mp hp
      refine draws_uniform.bind fun u hu => draws_pure ?_
      simpa using hu.1.le
    · exact List.eq_replicate_iff.mpr hmask
  refine (draws_mapM_all fun _ _ => hmask).bind fun masks hmasks => draws_pure ?_
  exact List.eq_replicate_iff.mpr hmasks

theorem draws_confine_outsider :
    Draws (confine ⟨outsider.memory.settings, [0], [1]⟩ [5] [5] : StateM Generator (Vec ℝ))
      fun x => ∃ a, 1 < a ∧ x = [a] := by
  have hbounce : Draws (bounce 0 1 5 5 : StateM Generator ℝ) (1 < ·) := by
    have hupper : Draws (bounceOff 1 5 5 (decide ((1 : ℝ) < 5)) : StateM Generator ℝ) (1 < ·) := by
      unfold bounceOff
      refine draws_ite (fun _ => ?_) fun hnot => absurd (decide_eq_true (by norm_num)) hnot
      refine draws_uniform.bind fun u hu => draws_pure ?_
      linarith [hu.1]
    unfold bounce
    refine hupper.bind fun b hb => (draws_bounceOff 0 5 b _).mono fun d hd => ?_
    rcases hd with ⟨hbelow, -⟩ | ⟨-, rfl⟩
    · linarith [of_decide_eq_true hbelow]
    · exact hb
  exact hbounce.bind fun a ha => draws_pure ⟨a, ha, rfl⟩

theorem leads_nextGeneration_outsider {first : State ℝ}
    {s : Session (List (Evaluation ℝ)) (Evolution Generator ℝ) ℝ} (h : Alone first s) :
    Leads (nextGeneration ⟨bowl.objective, around.region⟩ ⟨outsider.memory.settings, [0], [1]⟩
      first) s (fun _ s' => ∃ a, 1 < a ∧ Continues [[a], [5]] s') (fun _ _ => False) := by
  obtain ⟨cost, hpopulation, hbest⟩ := h.population
  have hdraw {β : Type} {d : StateM Generator β} {good : β → Prop} (hd : Draws d good)
      (s : Session (List (Evaluation ℝ)) (Evolution Generator ℝ) ℝ) :
      Leads (draw d) s (fun b s' => good b ∧ s'.progress = s.progress) (fun _ _ => False) :=
    ⟨hd _, rfl⟩
  have hmutate : Draws (mutate outsider.memory.settings [[5]] [5] s.memory.weights :
      StateM Generator _) (Fitting [[5]] [5] s.memory.weights) :=
    draws_mutate outsider.memory.settings (by simp) h.length_weights
  unfold nextGeneration
  rw [hpopulation, hbest, leads_bind, leads_get]
  dsimp only
  rw [h.probabilities]
  refine (hdraw hmutate s).bind ?_
  rintro ⟨⟨mutants, anchors⟩, weights⟩ s₁ ⟨⟨hfits, -⟩, h₁⟩
  refine (hdraw (draws_drawMasks_outsider _) s₁).bind ?_
  rintro ⟨probabilities, masks⟩ s₂ ⟨rfl, h₂⟩
  obtain ⟨mutant, rfl⟩ := List.length_eq_one_iff.mp hfits.length_mutants
  obtain ⟨anchor, rfl⟩ := List.length_eq_one_iff.mp hfits.length_anchors
  obtain rfl : anchor = [5] := by simpa using hfits.anchor_mem anchor (List.mem_singleton_self _)
  obtain ⟨a, rfl⟩ :=
    List.length_eq_one_iff.mp (hfits.length_mutant mutant (List.mem_singleton_self _))
  simp only [select, leads_bind, leads_remember]
  refine (hdraw draws_confine_outsider _).imp ?_
  rintro x s₃ ⟨⟨a, ha, rfl⟩, h₃⟩
  refine (leads_evaluate_bowl [a] s₃).imp ?_
  rintro c s₄ ⟨-, h₄, -⟩
  exact ⟨a, ha, [], by rw [h₄, h₃, h₂, h₁, h.requests]; rfl⟩

theorem leads_minimize_outsider :
    Leads (minimize ⟨bowl.objective, around.region⟩) outsider
      (fun _ s' => ∃ a, 1 < a ∧ Continues [[a], [5]] s') (fun _ _ => False) := by
  unfold minimize
  refine leads_start_outsider.bind ?_
  rintro ⟨box, first⟩ s₁ ⟨rfl, hrule, halone⟩
  rw [leads_bind, leads_get, leads_bind, generations]
  have hpass : Leads (pass ⟨bowl.objective, around.region⟩ ⟨outsider.memory.settings, [0], [1]⟩ 0
      first) s₁ (fun _ s' => ∃ a, 1 < a ∧ Continues [[a], [5]] s') (fun _ _ => False) := by
    unfold pass
    rw [leads_bind, leads_check, hrule, leads_ite]
    refine ⟨fun hstop => Bool.noConfusion hstop, fun _ => ?_⟩
    have hnext (rule : StoppingRule ℝ) : Alone first ⟨s₁.progress, rule, s₁.memory⟩ :=
      ⟨halone.population, halone.length_weights, halone.probabilities, halone.requests⟩
    exact (leads_nextGeneration_outsider (hnext _)).bind fun _ _ h => h
  refine hpass.bind ?_
  rintro ⟨next, continues⟩ s₂ ⟨a, ha, h₂⟩
  have hpasses (k : Nat) (state : State ℝ) (s : Session (List (Evaluation ℝ)) _ ℝ) :=
    upholds_pass_continues [[a], [5]] ⟨outsider.memory.settings, [0], [1]⟩ k state s
  rw [leads_ite]
  refine ⟨fun _ => ?_, fun _ => ⟨a, ha, h₂⟩⟩
  exact (leads_generations (I := fun _ => Continues [[a], [5]]) hpasses h₂ _ _).imp
    fun _ _ h => ⟨a, ha, h⟩

theorem minimize_leaves_overrides :
    ∃ o s' later, minimize ⟨bowl.objective, around.region⟩ outsider = (.ok o, s') ∧
      s'.progress.oracle.map Cost.point = later ++ [[5]] ∧ ∃ x ∈ later, ¬ Within [0] [1] x := by
  obtain ⟨o, s', hrun⟩ := minimize_eq_ok_outsider
  obtain ⟨a, ha, later, hlater⟩ := leads_minimize_outsider.of_ok hrun
  refine ⟨o, s', later ++ [[a]], hrun, by rw [hlater]; simp, [a], by simp, fun hwithin => ?_⟩
  obtain ⟨b, y, heq, hb, -⟩ := within_cons_iff.mp hwithin
  obtain ⟨rfl, -⟩ := List.cons.inj heq
  exact absurd hb.2 (not_le.mpr ha)

end Minima.Evolution
