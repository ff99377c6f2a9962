import Minima.Proofs.Descent.Accepted

/-!
# The trials of a search

Nothing is known here of the objective.  Its answers may be undefined or infinite,
and may depend on what was asked before.  Whatever they are, a search ends at a
trial that the region allows, and a success is a trial that did not fail the test.

The first trial is followed by at most one more than the budget, and by exactly so
many if the search fails: the last one is made only to be given up.
-/

namespace Minima

variable {σ α : Type}

/-! ## Counted requests -/

/-- From `p` to `p'` so many values and gradients were asked for.  The current point and what
is stored for it stay. -/
structure Progress.Asks (p : Progress σ α) (values gradients : Nat) (p' : Progress σ α) :
    Prop where
  stays : p.Stays (fun _ => True) p'
  valueCount_eq : p'.valueCount = p.valueCount + values
  gradientCount_eq : p'.gradientCount = p.gradientCount + gradients

variable {p p' p'' : Progress σ α} {values gradients values' gradients' : Nat}

theorem Progress.Asks.refl : p.Asks 0 0 p := ⟨.refl trivial, rfl, rfl⟩

theorem Progress.Asks.trans (h : p.Asks values gradients p')
    (h' : p'.Asks values' gradients' p'') :
    p.Asks (values + values') (gradients + gradients') p'' where
  stays := h.stays.trans h'.stays
  valueCount_eq := by rw [h'.valueCount_eq, h.valueCount_eq, Nat.add_assoc]
  gradientCount_eq := by rw [h'.gradientCount_eq, h.gradientCount_eq, Nat.add_assoc]

def Progress.AsksUpTo (p : Progress σ α) (values gradients : Nat) (p' : Progress σ α) : Prop :=
  ∃ v ≤ values, ∃ g ≤ gradients, p.Asks v g p'

theorem Progress.Asks.upTo (h : p.Asks values gradients p') (hvalues : values ≤ values')
    (hgradients : gradients ≤ gradients') : p.AsksUpTo values' gradients' p' :=
  ⟨values, hvalues, gradients, hgradients, h⟩

theorem Progress.AsksUpTo.mono (h : p.AsksUpTo values gradients p') (hvalues : values ≤ values')
    (hgradients : gradients ≤ gradients') : p.AsksUpTo values' gradients' p' := by
  obtain ⟨v, hv, g, hg, hasks⟩ := h
  exact hasks.upTo (Nat.le_trans hv hvalues) (Nat.le_trans hg hgradients)

theorem Progress.AsksUpTo.after (h : p'.AsksUpTo values' gradients' p'')
    (hasks : p.Asks values gradients p') :
    p.AsksUpTo (values + values') (gradients + gradients') p'' := by
  obtain ⟨v, hv, g, hg, hrest⟩ := h
  exact (hasks.trans hrest).upTo (Nat.add_le_add_left hv values) (Nat.add_le_add_left hg gradients)

theorem leads_value_asks (P : Problem σ α) (x : Vec α) (p : Progress σ α) :
    Leads (P.value x) p (fun _ p' => p.Asks 1 0 p') (fun _ p' => p.Asks 1 0 p') := by
  unfold Problem.value Problem.countValue
  simp only [leads_bind, leads_modify, leads_uncounted]
  have hasks (o : σ) : p.Asks 1 0 { p with oracle := o, valueCount := p.valueCount + 1 } :=
    ⟨⟨rfl, rfl, rfl, trivial⟩, rfl, rfl⟩
  exact (leads_true _ _).mono (fun _ o _ => hasks o) (fun _ o _ => hasks o)

theorem leads_gradient_asks (P : Problem σ α) (x : Vec α) (p : Progress σ α) :
    Leads (P.gradient x) p (fun _ p' => p.Asks 0 1 p') (fun _ p' => p.Asks 0 1 p') := by
  unfold Problem.gradient Problem.countGradient
  simp only [leads_bind, leads_modify, leads_uncounted]
  have hasks (o : σ) : p.Asks 0 1 { p with oracle := o, gradientCount := p.gradientCount + 1 } :=
    ⟨⟨rfl, rfl, rfl, trivial⟩, rfl, rfl⟩
  exact (leads_true _ _).mono (fun _ o _ => hasks o) (fun _ o _ => hasks o)

theorem leads_valueAndGradient_asks (P : Problem σ α) (x : Vec α) (p : Progress σ α) :
    Leads (P.valueAndGradient x) p (fun _ p' => p.Asks 1 1 p') (fun _ p' => p.Asks 1 1 p') := by
  unfold Problem.valueAndGradient Problem.countValue Problem.countGradient
  simp only [leads_bind, leads_modify, leads_uncounted]
  have hasks (o : σ) : p.Asks 1 1 { p with
      oracle := o
      valueCount := p.valueCount + 1
      gradientCount := p.gradientCount + 1 } :=
    ⟨⟨rfl, rfl, rfl, trivial⟩, rfl, rfl⟩
  exact (leads_true _ _).mono (fun _ o _ => hasks o) (fun _ o _ => hasks o)

/-! ## Moves into the region -/

variable [Scalar α]

theorem Region.along_of_firstFeasible {contains : Vec α → Bool} {x direction y : Vec α}
    {halvings : Nat} {step taken : α}
    (h : firstFeasible contains x direction halvings step = some (taken, y)) :
    y = along x direction taken := by
  induction halvings generalizing step with
  | zero =>
      simp only [firstFeasible] at h
      split at h
      · cases h
        rfl
      · contradiction
  | succ halvings ih =>
      simp only [firstFeasible] at h
      split at h
      · cases h
        rfl
      · exact ih h

theorem Region.firstFeasible_of_move {region : Region α} {x direction y : Vec α}
    {step taken : α} (h : region.move x direction step = .ok (taken, y)) :
    firstFeasible region.contains x direction maxHalvings step = some (taken, y) := by
  unfold move at h
  simp only [bind, Except.bind] at h
  split at h
  · contradiction
  split at h
  · rename_i hfirst
    cases h
    exact hfirst
  · contradiction

theorem Region.along_of_move {region : Region α} {x direction y : Vec α} {step taken : α}
    (h : region.move x direction step = .ok (taken, y)) : y = along x direction taken :=
  along_of_firstFeasible (firstFeasible_of_move h)

theorem Region.firstFeasible_of_contains {contains : Vec α → Bool} {x direction : Vec α}
    {step : α} (h : contains (along x direction step) = true) (halvings : Nat) :
    firstFeasible contains x direction halvings step = some (step, along x direction step) := by
  cases halvings with
  | zero => exact if_pos h
  | succ halvings => exact if_pos h

theorem Region.eq_of_move {region : Region α} {x direction y : Vec α} {step taken : α}
    (hcontains : region.contains (along x direction step) = true)
    (h : region.move x direction step = .ok (taken, y)) : taken = step := by
  have hfirst := firstFeasible_of_move h
  rw [firstFeasible_of_contains hcontains] at hfirst
  cases hfirst
  rfl

theorem Region.contains_of_move {region : Region α} {x direction y : Vec α} {step taken : α}
    (h : region.move x direction step = .ok (taken, y)) : region.contains y = true :=
  (move_eq_ok (S := fun _ => True) (fun _ _ => trivial) trivial h).1

def SearchResult.trial (r : SearchResult α) : LineSearch.Trial α := ⟨r.x, r.step, r.value⟩

namespace LineSearch

/-! ## Stages of a search -/

def valuesAtOrigin (p : Progress σ α) : Nat := if p.value.isSome then 0 else 1

theorem leads_origin_asks (P : Problem σ α) (direction : Vec α) (p : Progress σ α) :
    Leads (origin P direction) p (fun _ p' => p.Asks (valuesAtOrigin p) 1 p')
      (fun _ p' => p.Asks (valuesAtOrigin p) 1 p') := by
  have hslope {g : Vec α} {p' : Progress σ α} (h : p.Asks (valuesAtOrigin p) 1 p') :
      Leads (attempt (requireSame g.length direction.length) : Work σ α Unit) p'
        (fun _ p' => p.Asks (valuesAtOrigin p) 1 p')
        (fun _ p' => p.Asks (valuesAtOrigin p) 1 p') := by
    rw [leads_attempt]
    split
    · exact h
    · exact h
  unfold origin
  rw [leads_bind, leads_get]
  cases hvalue : p.value with
  | some v =>
      have hnone : valuesAtOrigin p = 0 := by rw [valuesAtOrigin, hvalue]; rfl
      rw [hnone] at hslope ⊢
      simp only [leads_bind, leads_pure]
      exact (leads_gradient_asks P p.point p).mono (fun _ _ h => hslope h) (fun _ _ h => h)
  | none =>
      have hone : valuesAtOrigin p = 1 := by rw [valuesAtOrigin, hvalue]; rfl
      rw [hone] at hslope ⊢
      simp only [leads_bind, leads_pure]
      exact (leads_valueAndGradient_asks P p.point p).mono (fun _ _ h => hslope h) (fun _ _ h => h)

def Trial.Allowed (P : Problem σ α) (direction : Vec α) (p : Progress σ α) (t : Trial α) : Prop :=
  ∃ step, P.region.move p.point direction step = .ok (t.step, t.x)

theorem Trial.Allowed.of_asks {P : Problem σ α} {direction : Vec α} {p p' : Progress σ α}
    {values gradients : Nat} {t : Trial α} (h : t.Allowed P direction p')
    (hasks : p.Asks values gradients p') : t.Allowed P direction p := by
  rw [Allowed, hasks.stays.point_eq] at h
  exact h

theorem Trial.allowed_of_move {P : Problem σ α} {direction : Vec α} {p p' : Progress σ α}
    {values gradients : Nat} {step : α} {t : Trial α}
    (hmove : P.region.move p.point direction step = .ok (t.step, t.x))
    (hasks : p.Asks values gradients p') : t.Allowed P direction p' := by
  rw [Allowed, hasks.stays.point_eq]
  exact ⟨step, hmove⟩

theorem leads_trial_asks (P : Problem σ α) (direction : Vec α) (step : α) (p : Progress σ α) :
    Leads (trial P direction step) p
      (fun t p' => P.region.move p.point direction step = .ok (t.step, t.x) ∧ p.Asks 1 0 p')
      (fun _ p' => p.AsksUpTo 1 0 p') := by
  unfold trial
  simp only [leads_bind, leads_get, leads_attempt]
  cases hmove : P.region.move p.point direction step with
  | error failure => exact Progress.Asks.refl.upTo (Nat.zero_le 1) (Nat.le_refl 0)
  | ok reached =>
      simp only [leads_pure]
      exact (leads_value_asks P reached.2 p).mono (fun v p' h => ⟨trivial, h⟩)
        (fun _ p' h => h.upTo (Nat.le_refl 1) (Nat.le_refl 0))

theorem leads_finish_asks (P : Problem σ α) (slope : α) (t : Trial α) (succeeded : Bool)
    (p : Progress σ α) :
    Leads (finish P slope t succeeded) p
      (fun r p' => r.trial = t ∧ r.slope = slope ∧ r.succeeded = succeeded ∧ p.Asks 0 1 p')
      (fun _ p' => p.Asks 0 1 p') := by
  unfold finish
  simp only [leads_bind, leads_pure]
  exact (leads_gradient_asks P t.x p).imp fun _ p' h => ⟨rfl, trivial, trivial, h⟩

/-! ## Loops -/

def Follow (budget : Nat) (succeeded : Bool) (further : Nat) : Prop :=
  if succeeded then further ≤ budget else further = budget + 1

structure Stops (search : LineSearch α) (P : Problem σ α) (direction : Vec α) (v slope : α)
    (budget : Nat) (p : Progress σ α) (t : Trial α) (succeeded : Bool) (p' : Progress σ α) :
    Prop where
  allowed : t.Allowed P direction p
  accepted : succeeded = true → search.Accepts v slope t
  asks : ∃ further, Follow budget succeeded further ∧ p.Asks further 0 p'

variable {search : LineSearch α} {P : Problem σ α} {direction : Vec α} {v slope : α}
  {budget : Nat} {t : Trial α} {succeeded : Bool} {p p' p'' : Progress σ α}

theorem Stops.after_trial (h : search.Stops P direction v slope budget p' t succeeded p'')
    (hasks : p.Asks 1 0 p') : search.Stops P direction v slope (budget + 1) p t succeeded p'' where
  allowed := h.allowed.of_asks hasks
  accepted := h.accepted
  asks := by
    obtain ⟨further, hfollow, hfurther⟩ := h.asks
    refine ⟨1 + further, ?_, hasks.trans hfurther⟩
    cases succeeded with
    | true => exact Nat.add_comm further 1 ▸ Nat.succ_le_succ hfollow
    | false => exact (congrArg (1 + ·) hfollow).trans (Nat.add_comm 1 _)

theorem stops_spent (hmove : ∃ step, P.region.move p.point direction step = .ok (t.step, t.x))
    (hasks : p.Asks 1 0 p') : search.Stops P direction v slope 0 p t false p' where
  allowed := hmove
  accepted := nofun
  asks := ⟨1, rfl, hasks⟩

theorem leads_backtrack_asks (b : Backtracking α) (P : Problem σ α) (direction : Vec α)
    (v slope : α) (budget : Nat) (before : Trial α) (p : Progress σ α) :
    Leads (b.backtrack P direction v slope budget before) p
      (fun (t, succeeded) p' =>
        (backtracking b).Stops P direction v slope budget p t succeeded p')
      (fun _ p' => p.AsksUpTo (budget + 1) 0 p') := by
  induction budget generalizing before p with
  | zero =>
      unfold Backtracking.backtrack
      simp only [leads_bind, leads_pure]
      exact (leads_trial_asks P direction _ p).imp fun t p' h => stops_spent ⟨_, h.1⟩ h.2
  | succ budget ih =>
      unfold Backtracking.backtrack
      simp only [leads_bind, leads_pure, leads_ite]
      refine (leads_trial_asks P direction _ p).mono (fun t p' h => ⟨fun _ => ?_, fun hfine => ?_⟩)
        (fun _ _ h => ?_)
      · exact (ih t p').mono (fun _ _ hstops => hstops.after_trial h.2)
          (fun _ _ hfails => Nat.add_comm 1 (budget + 1) ▸ hfails.after h.2)
      · simp only [Bool.or_eq_true, not_or, Bool.not_eq_true] at hfine
        exact ⟨⟨_, h.1⟩, fun _ => hfine.1, 1, Nat.succ_le_succ (Nat.zero_le budget), h.2⟩
      · exact h.mono (Nat.le_add_left 1 _) (Nat.le_refl 0)

theorem leads_bracket_asks (b : Bracketing α) (P : Problem σ α) (direction : Vec α)
    (v slope : α) (budget : Nat) (left right : α) {t : Trial α} {p : Progress σ α}
    (ht : t.Allowed P direction p) :
    Leads (b.bracket P direction v slope budget left right t) p
      (fun (t, succeeded) p' => (bracketing b).Stops P direction v slope budget p t succeeded p')
      (fun _ p' => p.AsksUpTo (budget + 1) 0 p') := by
  have hfine {budget : Nat} {t : Trial α} {p : Progress σ α} (ht : t.Allowed P direction p)
      (h : (!b.tooShort v slope t && !b.tooLong v slope t) = true) :
      (bracketing b).Stops P direction v slope budget p t true p := by
    simp only [Bool.and_eq_true, Bool.not_eq_true'] at h
    exact ⟨ht, fun _ => h, 0, Nat.zero_le budget, .refl⟩
  -- the trial that the loop is entered with was asked for before, so it is not counted
  induction budget generalizing left right t p with
  | zero =>
      unfold Bracketing.bracket
      simp only [leads_bind, leads_pure, leads_ite]
      refine ⟨hfine ht, fun _ => ?_⟩
      exact (leads_trial_asks P direction _ p).imp fun t p' h => stops_spent ⟨_, h.1⟩ h.2
  | succ budget ih =>
      unfold Bracketing.bracket
      simp only [leads_bind, leads_pure, leads_ite]
      refine ⟨hfine ht, fun _ => ?_⟩
      refine (leads_trial_asks P direction _ p).mono (fun t p' h => ?_) (fun _ _ h => ?_)
      · have hallowed := Trial.allowed_of_move h.1 h.2
        exact (ih _ _ hallowed).mono (fun _ _ hstops => hstops.after_trial h.2)
          (fun _ _ hfails => Nat.add_comm 1 (budget + 1) ▸ hfails.after h.2)
      · exact h.mono (Nat.le_add_left 1 _) (Nat.le_refl 0)

/-! ## Searches -/

structure Concludes (search : LineSearch α) (P : Problem σ α) (direction : Vec α) (budget : Nat)
    (p : Progress σ α) (r : SearchResult α) (p' : Progress σ α) : Prop where
  accepted : ∃ v p₁, origin P direction p = (.ok (v, r.slope), p₁) ∧
    (r.succeeded = true → search.Accepts v r.slope r.trial)
  allowed : r.trial.Allowed P direction p
  asks : ∃ further, Follow budget r.succeeded further ∧
    p.Asks (valuesAtOrigin p + 1 + further) 2 p'

theorem leads_finish_concludes {p₀ p₁ : Progress σ α}
    (horigin : origin P direction p₀ = (.ok (v, slope), p₁))
    (hasks : p₀.Asks (valuesAtOrigin p₀ + 1) 1 p)
    (h : search.Stops P direction v slope budget p t succeeded p') :
    Leads (finish P slope t succeeded) p'
      (fun r p' => search.Concludes P direction budget p₀ r p')
      (fun _ p' => p₀.AsksUpTo (valuesAtOrigin p₀ + 1 + (budget + 1)) 2 p') := by
  obtain ⟨further, hfollow, hfurther⟩ := h.asks
  refine (leads_finish_asks P slope t succeeded p').mono (fun r p'' hr => ?_) (fun _ p'' hr => ?_)
  · obtain ⟨rfl, rfl, rfl, hgradient⟩ := hr
    exact ⟨⟨v, p₁, horigin, h.accepted⟩, h.allowed.of_asks hasks, further, hfollow,
      (hasks.trans hfurther).trans hgradient⟩
  · have hle : further ≤ budget + 1 := by
      cases succeeded with
      | true => exact Nat.le_succ_of_le hfollow
      | false => exact Nat.le_of_eq hfollow
    exact ((hasks.trans hfurther).trans hr).upTo (by omega) (Nat.le_refl 2)

/-- What all searches have in common: a first trial and a loop that goes on from it. -/
theorem leads_stages_conclude (loop : α → α → Trial α → Work σ α (Trial α × Bool)) (step : α)
    (hloop : ∀ v slope t p, t.Allowed P direction p →
      Leads (loop v slope t) p
        (fun (t, succeeded) p' => search.Stops P direction v slope budget p t succeeded p')
        (fun _ p' => p.AsksUpTo (budget + 1) 0 p'))
    (p : Progress σ α) :
    Leads (do
        let (v, slope) ← origin P direction
        let (t, succeeded) ← loop v slope (← trial P direction step)
        finish P slope t succeeded) p
      (fun r p' => search.Concludes P direction budget p r p')
      (fun _ p' => p.AsksUpTo (valuesAtOrigin p + 1 + (budget + 1)) 2 p') := by
  simp only [leads_bind]
  refine (leads_origin_asks P direction p).mono_run (fun o p₁ horigin ho => ?_)
    (fun _ p₁ _ ho => ho.upTo (by omega) (by decide))
  refine (leads_trial_asks P direction step p₁).mono (fun t p₂ ht => ?_)
    (fun _ p₂ ht => (ht.after ho).mono (by omega) (by decide))
  have hfirst := ho.trans ht.2
  exact (hloop o.1 o.2 t p₂ (Trial.allowed_of_move ht.1 ht.2)).mono
    (fun found p₃ h => leads_finish_concludes horigin hfirst h)
    (fun _ p₃ h => (h.after hfirst).mono (Nat.le_refl _) (by decide))

def backtrackFrom (b : Backtracking α) (P : Problem σ α) (budget : Nat) (direction : Vec α)
    (v slope : α) (first : Trial α) : Work σ α (Trial α × Bool) :=
  if b.insufficient v slope first then b.backtrack P direction v slope budget first
  else pure (first, true)

theorem backtracking_search_eq (b : Backtracking α) (P : Problem σ α) (budget : Nat)
    (direction : Vec α) (step : α) :
    b.search P budget direction step = (do
      let (v, slope) ← origin P direction
      let (t, succeeded) ← backtrackFrom b P budget direction v slope (← trial P direction step)
      finish P slope t succeeded) := by
  unfold Backtracking.search backtrackFrom
  refine bind_congr fun o => bind_congr fun first => ?_
  split
  · rfl
  · rw [pure_bind]

theorem leads_search_concludes (search : LineSearch α) (P : Problem σ α) (budget : Nat)
    (direction : Vec α) (step : α) (p : Progress σ α) :
    Leads (search.search P budget direction step) p
      (fun r p' => search.Concludes P direction budget p r p')
      (fun _ p' => p.AsksUpTo (valuesAtOrigin p + 1 + (budget + 1)) 2 p') := by
  cases search with
  | backtracking b =>
      change Leads (b.search P budget direction step) p _ _
      rw [backtracking_search_eq]
      refine leads_stages_conclude _ step (fun v slope t p ht => ?_) p
      unfold backtrackFrom
      rw [leads_ite]
      refine ⟨fun _ => leads_backtrack_asks b P direction v slope budget t p, fun hfine => ?_⟩
      exact ⟨ht, fun _ => (Bool.not_eq_true _).mp hfine, 0, Nat.zero_le budget, .refl⟩
  | bracketing b =>
      exact leads_stages_conclude
        (fun v slope first => b.bracket P direction v slope budget 0 0 first) step
        (fun v slope t p ht => leads_bracket_asks b P direction v slope budget 0 0 ht) p

/-- Whatever the objective answers, a search ends.  The values it has asked for are those at the
starting point, one for the first trial, and one for each further trial: at most as many as the
budget if the search succeeds, and one more than the budget if it fails. -/
theorem search_further_trials (search : LineSearch α) (P : Problem σ α) (budget : Nat)
    (direction : Vec α) (step : α) (p : Progress σ α) :
    Leads (search.search P budget direction step) p
      (fun r p' => ∃ further,
        p'.valueCount = p.valueCount + (if p.value.isSome then 0 else 1) + 1 + further ∧
        if r.succeeded then further ≤ budget else further = budget + 1)
      (fun _ p' => p'.valueCount ≤
        p.valueCount + (if p.value.isSome then 0 else 1) + 1 + (budget + 1)) := by
  refine (leads_search_concludes search P budget direction step p).mono (fun r p' h => ?_)
    (fun _ p' h => ?_)
  · obtain ⟨further, hfollow, hasks⟩ := h.asks
    refine ⟨further, ?_, hfollow⟩
    rw [hasks.valueCount_eq, valuesAtOrigin]
    omega
  · obtain ⟨values, hle, _, _, hasks⟩ := h
    rw [hasks.valueCount_eq]
    rw [valuesAtOrigin] at hle
    omega

def searchFromOne (search : LineSearch Float) (direction step : Float) :
    Checked Float (SearchResult Float) × Progress (List (Evaluation Float)) Float :=
  search.search ⟨Descent.parabola.objective, Constraint.none.region⟩ 2 [direction] step
    (.start [] [1])

theorem search_exceeds_budget :
    (∃ r p', searchFromOne (.backtracking .usual) 1 1 = (.ok r, p') ∧ r.succeeded = false ∧
      p'.valueCount = 1 + 1 + 3) ∧
    ∃ r p', searchFromOne (.bracketing .usual) (-2) 0.01 = (.ok r, p') ∧ r.succeeded = false ∧
      p'.valueCount = 1 + 1 + 3 := by
  have hspent {run : Checked Float (SearchResult Float) × Progress (List (Evaluation Float)) Float}
      (h : run.1.toOption.any (fun r => !r.succeeded) = true ∧ run.2.valueCount = 5) :
      ∃ r p', run = (.ok r, p') ∧ r.succeeded = false ∧ p'.valueCount = 1 + 1 + 3 := by
    obtain ⟨answer, p'⟩ := run
    cases answer with
    | error e => cases h.1
    | ok r => exact ⟨r, p', rfl, (Bool.not_eq_true' _).mp h.1, h.2⟩
  constructor
  · exact hspent (by decide +kernel)
  · exact hspent (by decide +kernel)

end LineSearch

end Minima
