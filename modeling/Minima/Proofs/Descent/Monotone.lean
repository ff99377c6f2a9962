import Minima.Proofs.Descent.Accepted
import Minima.Proofs.Exact.Vec

/-!
# Values never rise

In exact arithmetic a descent never goes uphill.  A direction that is not known to
descend is replaced by the negative gradient, so the slope of every search is not
negative; first steps are not negative either, and no search makes a negative
step out of others.  What a search accepts is then not higher than where it
began, whether or not the gradient belongs to the cost.
-/

namespace Minima

variable {σ : Type}

namespace LineSearch

/-! ## Accepted trials -/

def Proper : LineSearch ℝ → Prop
  | backtracking b => Backtracking.new b.epsilon b.alpha b.beta = .ok b
  | bracketing b => Bracketing.new b.epsilon b.alpha b.beta b.extrapolation = .ok b

theorem pos_of_backtracking {b : Backtracking ℝ} (h : (backtracking b).Proper) :
    0 < b.alpha ∧ 0 < b.beta := by
  change Backtracking.new b.epsilon b.alpha b.beta = .ok b at h
  unfold Backtracking.new at h
  split at h
  · contradiction
  split at h
  · contradiction
  · rename_i halpha hbeta
    exact ⟨(not_not.mp halpha).1, (not_not.mp hbeta).1⟩

theorem pos_of_bracketing {b : Bracketing ℝ} (h : (bracketing b).Proper) :
    0 < b.alpha ∧ 0 < b.extrapolation := by
  change Bracketing.new b.epsilon b.alpha b.beta b.extrapolation = .ok b at h
  unfold Bracketing.new at h
  split at h
  · contradiction
  split at h
  · contradiction
  · rename_i hbounds hextrapolation
    exact ⟨(not_not.mp hbounds).1, one_pos.trans (not_not.mp hextrapolation)⟩

variable {search : LineSearch ℝ}

theorem Proper.keeps_nonneg (h : search.Proper) : search.Keeps (0 ≤ ·) := by
  cases search with
  | backtracking b => exact fun s hs => mul_nonneg hs (pos_of_backtracking h).2.le
  | bracketing b =>
      refine ⟨le_refl _, fun s hs => mul_nonneg hs (pos_of_bracketing h).2.le, fun l r hl hr => ?_⟩
      have hhalf : (0 : ℝ) ≤ 0.5 := by norm_num
      exact mul_nonneg hhalf (add_nonneg hl hr)

theorem le_of_not_above {a t slope value before : ℝ} (ha : 0 < a) (ht : 0 ≤ t)
    (hslope : 0 ≤ slope) (h : ¬ -a * t * slope < value - before) : value ≤ before := by
  have hpromise : 0 ≤ a * t * slope := mul_nonneg (mul_nonneg ha.le ht) hslope
  linarith

theorem Proper.le_of_accepts (h : search.Proper) {v slope : ℝ} {t : Trial ℝ} (ht : 0 ≤ t.step)
    (hslope : 0 ≤ slope) (haccepts : search.Accepts v slope t) : t.value ≤ v := by
  cases search with
  | backtracking b =>
      exact le_of_not_above (pos_of_backtracking h).1 ht hslope (of_decide_eq_false haccepts)
  | bracketing b =>
      exact le_of_not_above (pos_of_bracketing h).1 ht hslope (of_decide_eq_false haccepts.2)

end LineSearch

namespace Descent

open LineSearch

/-! ## Directions -/

/-- From the stand the strategy searches downhill, if only in the sense of the gradient that
it is shown. -/
structure Downhill (stand : Stand ℝ) (strategy : Strategy ℝ) : Prop where
  length_eq : stand.visited.gradient.length = stand.direction.length
  slope : Vec.laneDot stand.visited.gradient stand.direction ≤ 0
  step : 0 ≤ stand.step
  /-- Wherever a curvature is known the direction descends strictly. -/
  strict {formula : ConjugateFormula} {c : ℝ} : strategy = .conjugate formula (some c) →
    Vec.laneDot stand.visited.gradient stand.direction < 0

theorem Downhill.initialStep {stand : Stand ℝ} {strategy : Strategy ℝ}
    (h : Downhill stand strategy) :
    ∃ step, strategy.initialStep stand.step stand.visited.gradient stand.direction = .ok step ∧
      0 ≤ step := by
  cases strategy with
  | steepest => exact ⟨_, rfl, h.step⟩
  | quasiNewton _ => exact ⟨1, rfl, zero_le_one⟩
  | conjugate formula known =>
      cases known with
      | none => exact ⟨1, rfl, zero_le_one⟩
      | some c =>
          by_cases hc : 0 < c
          · refine ⟨-Vec.laneDot stand.visited.gradient stand.direction /
              (c * Vec.normSq stand.direction), ?_, ?_⟩
            · simp only [Strategy.initialStep, if_pos hc, Vec.laneDot?_eq_ok h.length_eq]
              rfl
            · exact div_nonneg (neg_nonneg.mpr h.slope)
                (mul_nonneg hc.le (Vec.normSq_nonneg stand.direction))
          · exact ⟨1, by simp only [Strategy.initialStep, if_neg hc], zero_le_one⟩

theorem Downhill.normSq_pos {stand : Stand ℝ} {formula : ConjugateFormula} {c : ℝ}
    (h : Downhill stand (.conjugate formula (some c))) : 0 < Vec.normSq stand.direction := by
  refine (Vec.normSq_nonneg _).lt_of_ne fun hzero => ?_
  exact (h.strict rfl).ne (Vec.laneDot_eq_zero_of_normSq hzero.symm)

theorem downhill_reset {stand : Stand ℝ} (strategy : Strategy ℝ) (dimension : Nat)
    (hdirection : stand.direction = Vec.neg stand.visited.gradient) (hstep : 0 ≤ stand.step) :
    Downhill stand (strategy.reset dimension) where
  length_eq := by simp [hdirection, Vec.neg]
  slope := by
    rw [hdirection, Vec.laneDot_neg_self]
    exact neg_nonpos.mpr (Vec.normSq_nonneg _)
  step := hstep
  strict := by
    intro formula c h
    cases strategy <;> simp [Strategy.reset] at h

variable {s : Session σ (Descent ℝ) ℝ}

theorem leads_nextDirection_downhill (stand : Stand ℝ) {r : SearchResult ℝ} (hstep : 0 ≤ r.step) :
    Leads (nextDirection stand ⟨r.x, r.gradient, r.gradientNormSq⟩) s
      (fun direction s' => Downhill (Stand.ofResult r direction) s'.memory.strategy)
      (fun _ _ => True) := by
  unfold nextDirection resetStrategy Run.remember
  simp only [leads_bind, leads_get, leads_attempt]
  split
  · simp only [leads_modify]
    rename_i answer _
    by_cases hlength : r.gradient.length = answer.1.length
    · rw [Vec.laneDot?_eq_ok hlength]
      simp only [leads_ite, leads_bind, leads_modify, leads_pure]
      constructor
      · exact fun _ => downhill_reset answer.2 r.x.length rfl hstep
      · intro hdescends
        exact {
          length_eq := hlength
          slope := (not_le.mp hdescends).le
          step := hstep
          strict := fun _ => not_le.mp hdescends
        }
    · have hmismatch : Vec.laneDot? r.gradient answer.1 = .error .sizeMismatch := by
        rw [Vec.laneDot?, requireSame, if_neg hlength]
        rfl
      rw [hmismatch]
      trivial
  · trivial

/-! ## Stands of a run -/

variable {P : Problem σ ℝ} {value : Vec ℝ → Checked ℝ ℝ} {gradient : Vec ℝ → Checked ℝ (Vec ℝ)}
  {origin : Session σ (Descent ℝ) ℝ} {stand : Stand ℝ} {i : Nat}

structure Slides (P : Problem σ ℝ) (value : Vec ℝ → Checked ℝ ℝ)
    (gradient : Vec ℝ → Checked ℝ (Vec ℝ)) (origin : Session σ (Descent ℝ) ℝ) (stand : Stand ℝ)
    (s : Session σ (Descent ℝ) ℝ) : Prop where
  stands : Stands P value gradient (fun _ => True) stand s.progress
  downhill : Downhill stand s.memory.strategy
  search_eq : s.memory.search = origin.memory.search
  below : ∃ v, value origin.progress.point = .ok v ∧ stand.value ≤ v

theorem leads_searchFrom_of_slides (evaluates : P.objective.Evaluates value gradient)
    (hproper : origin.memory.search.Proper) (h : Slides P value gradient origin stand s) :
    Leads (searchFrom P stand) s
      (fun r s' => LineSearch.Found P value gradient (0 ≤ ·) r ∧
        (r.succeeded = true → r.value ≤ stand.value) ∧ s'.memory = s.memory)
      (fun _ _ => True) := by
  rw [← h.search_eq] at hproper
  have hstep : ∀ step, Directions.initialStep s.memory.strategy stand.step stand.visited.gradient
      stand.direction = .ok step → 0 ≤ step := by
    intro step hinitial
    obtain ⟨step', hinitial', hnonneg⟩ := h.downhill.initialStep
    obtain rfl : step' = step := Except.ok.inj (hinitial'.symm.trans hinitial)
    exact hnonneg
  have hhalf (step : ℝ) (hstep : 0 ≤ step) : 0 ≤ step * 0.5 := by positivity
  refine (leads_searchFrom evaluates P.allows_true hhalf hproper.keeps_nonneg h.stands
    hstep).mono (fun r s' hr => ⟨hr.1.found, fun hsucceeded => ?_, hr.2.2⟩) (fun _ _ _ => trivial)
  obtain ⟨v, ⟨hvalue, g, hgradient, -, hslope⟩, haccepts⟩ := hr.1.accepted
  have hv : stand.value = v := by
    rw [h.stands.point_eq, h.stands.measured.value_eq] at hvalue
    exact Except.ok.inj hvalue
  have hg : stand.visited.gradient = g := by
    rw [h.stands.point_eq, h.stands.measured.gradient_eq] at hgradient
    exact Except.ok.inj hgradient
  rw [hv]
  refine hproper.le_of_accepts hr.1.found.step ?_ (haccepts hsucceeded)
  rw [hslope, ← hg]
  exact neg_nonneg.mpr h.downhill.slope

theorem leads_advance_of_slides (evaluates : P.objective.Evaluates value gradient)
    (hproper : origin.memory.search.Proper) (h : Slides P value gradient origin stand s) :
    Leads (advance P i stand) s
      (fun next s' => ∀ stand' ∈ next, Slides P value gradient origin stand' s')
      (fun _ _ => True) := by
  apply leads_advance
  refine (leads_searchFrom_of_slides evaluates hproper h).mono
    (fun r s₁ hr => ⟨fun _ _ => nofun, fun hsucceeded => ?_⟩) (fun _ _ h => h)
  obtain ⟨hfound, hle, hmemory⟩ := hr
  refine ((leads_nextDirection stand _).and (leads_nextDirection_downhill stand hfound.step)).mono
    (fun direction s₂ hs₂ rule next hnext stand' hmem => ?_) (fun _ _ _ => trivial)
  obtain rfl : Stand.ofResult r direction = stand' := by
    simp only [List.mem_cons, List.not_mem_nil, or_false] at hnext
    rcases hnext with rfl | rfl
    · contradiction
    · exact Option.mem_some.mp hmem
  obtain ⟨v, hv, hbelow⟩ := h.below
  exact {
    stands := ⟨measured_ofResult hfound direction, rfl, trivial⟩
    downhill := hs₂.2
    search_eq := by rw [hs₂.1.2, hmemory, h.search_eq]
    below := ⟨v, hv, (hle hsucceeded).trans hbelow⟩
  }

theorem leads_start_of_feasible (evaluates : P.objective.Evaluates value gradient) :
    Leads (start P) origin (fun stand s => Slides P value gradient origin stand s)
      (fun _ _ => True) := by
  refine (leads_start evaluates P.allows_true trivial).mono (fun stand s h => ?_)
    (fun _ _ _ => trivial)
  obtain ⟨hstands, hx, hsearch, hstrategy, hdirection, hstep⟩ := h
  have hvalue := hstands.measured.value_eq
  rw [hx] at hvalue
  exact {
    stands := hstands
    downhill := by
      rw [hstrategy]
      exact downhill_reset _ _ hdirection (by rw [hstep]; exact zero_le_one)
    search_eq := hsearch
    below := ⟨_, hvalue, le_refl _⟩
  }

theorem Reaches.slides (evaluates : P.objective.Evaluates value gradient)
    (hproper : origin.memory.search.Proper) (h : Reaches P origin i stand s) :
    Slides P value gradient origin stand s := by
  induction h with
  | start hrun => exact (leads_start_of_feasible evaluates).of_ok hrun
  | advance _ hrun ih =>
      exact (leads_advance_of_slides evaluates hproper ih).of_ok hrun _ (Option.mem_some_self _)

/-! ## The run -/

theorem value_minimize_of_infeasible (h : P.region.contains origin.progress.point = false) :
    (minimize P origin).2.progress.value = none := by
  have hleads : Leads (minimize P) origin (fun _ s => s.progress.value = none)
      (fun _ s => s.progress.value = none) := by
    unfold minimize start Run.reset
    simp only [leads_bind, leads_modify, leads_get, leads_ite, leads_throw]
    exact ⟨fun _ => rfl, fun hcontains => by simp [Progress.reset, h] at hcontains⟩
  exact hleads.final

/-- For a cost whose value and gradient depend on the point alone, the gradient correct or
not: every search of a run goes downhill from the current point with a first step that is not
negative, no accepted point is higher than the one before it, and however the run ends, the
stored value is not above that of the start. -/
theorem minimize_never_rises (evaluates : P.objective.Evaluates value gradient)
    (origin : Session σ (Descent ℝ) ℝ) (hproper : origin.memory.search.Proper) :
    (∀ i stand s, Reaches P origin i stand s →
      (s.progress.point = stand.visited.x ∧ value stand.visited.x = .ok stand.value ∧
        gradient stand.visited.x = .ok stand.visited.gradient) ∧
      Vec.laneDot stand.visited.gradient stand.direction ≤ 0 ∧
      (∃ step, s.memory.strategy.initialStep stand.step stand.visited.gradient stand.direction =
        .ok step ∧ 0 ≤ step) ∧
      (∀ formula c, s.memory.strategy = .conjugate formula (some c) →
        0 < Vec.normSq stand.direction) ∧
      ∀ r s', searchFrom P stand s = (.ok r, s') →
        value r.x = .ok r.value ∧ (r.succeeded = true → r.value ≤ stand.value)) ∧
      ∀ v, (minimize P origin).2.progress.value = some v →
        ∃ v₀, value origin.progress.point = .ok v₀ ∧ v ≤ v₀ := by
  constructor
  · intro i stand s hreaches
    have h := hreaches.slides evaluates hproper
    refine ⟨⟨h.stands.point_eq, h.stands.measured.value_eq, h.stands.measured.gradient_eq⟩,
      h.downhill.slope, h.downhill.initialStep, fun formula c hstrategy => ?_,
      fun r s' hrun => ?_⟩
    · have hdownhill := h.downhill
      rw [hstrategy] at hdownhill
      exact hdownhill.normSq_pos
    · obtain ⟨hfound, hle, -⟩ := (leads_searchFrom_of_slides evaluates hproper h).of_ok hrun
      exact ⟨hfound.value_eq, hle⟩
  · intro v hv
    cases hfeasible : P.region.contains origin.progress.point with
    | false =>
        rw [value_minimize_of_infeasible hfeasible] at hv
        contradiction
    | true =>
        have hended := (leads_minimize evaluates P.allows_true hfeasible trivial).final
        have hpoint := hended.rests.value_eq hv
        rcases hended.accepted with hstart | ⟨i, stand, s, r, s', hreaches, hrun, hsucceeded, hx⟩
        · rw [hstart] at hpoint
          exact ⟨v, hpoint, le_refl v⟩
        · have h := hreaches.slides evaluates hproper
          obtain ⟨hfound, hle, -⟩ := (leads_searchFrom_of_slides evaluates hproper h).of_ok hrun
          obtain ⟨v₀, hv₀, hbelow⟩ := h.below
          rw [hx, hfound.value_eq] at hpoint
          refine ⟨v₀, hv₀, ?_⟩
          rw [← Except.ok.inj hpoint]
          exact (hle hsucceeded).trans hbelow

theorem minimize_never_rises_parabola :
    (bracketing (Bracketing.usual : Bracketing ℝ)).Proper ∧
      ∃ stand s,
        Reaches ⟨parabola.objective, Constraint.none.region⟩
          (fromOne (conjugateGradient : Descent ℝ)) 0 stand s ∧
        Vec.laneDot stand.visited.gradient stand.direction ≤ 0 ∧
        (∃ step, s.memory.strategy.initialStep stand.step stand.visited.gradient stand.direction =
          .ok step ∧ 0 ≤ step) ∧
        ∀ r s', searchFrom ⟨parabola.objective, Constraint.none.region⟩ stand s = (.ok r, s') →
          r.succeeded = true → r.value ≤ stand.value := by
  have hproper : (bracketing (Bracketing.usual : Bracketing ℝ)).Proper := by
    change Bracketing.new _ _ _ _ = _
    rw [Bracketing.new, if_neg, if_neg]
    · norm_num [Bracketing.usual]
    · norm_num [Bracketing.usual]
  obtain ⟨hsearches, -⟩ := minimize_never_rises
    (P := ⟨parabola.objective, Constraint.none.region⟩) (Cost.objective_evaluates rfl)
    (fromOne (conjugateGradient : Descent ℝ)) hproper
  refine ⟨hproper, _, _, .start rfl, ?_⟩
  obtain ⟨-, hslope, hinitial, -, hsteps⟩ := hsearches 0 _ _ (.start rfl)
  exact ⟨hslope, hinitial, fun r s' hrun => (hsteps r s' hrun).2⟩

end Descent

end Minima
