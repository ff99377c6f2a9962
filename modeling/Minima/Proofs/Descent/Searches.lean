import Minima.Proofs.Descent.Outcome
import Minima.Proofs.LineSearch.Trials

/-!
# The searches of a descent

A descent goes from search to search and has no bound of its own.  It ends because the budget is
checked after every search that succeeds: a relative change that is undefined is never small, but
it does not keep the run from ending either.  Nothing is known here of the objective, whose answers
may be undefined and may depend on what was asked before.

A search asks for two gradients, one where it begins and one where it ends, and for no value where
it begins, since that value is stored.
-/

namespace Minima.Descent

variable {κ σ α : Type} [Scalar α] [Directions κ α] {P : Problem σ α} {stand : Stand α} {i : Nat}
  {origin s s' : Session σ (DescentBy κ α) α}

/-- A run from `origin` has ended with an answer, after it went from search to search for as long
as it went on.  It has begun so many searches. -/
inductive Halts (P : Problem σ α) (origin : Session σ (DescentBy κ α) α) :
    Nat → Checked α Outcome → Session σ (DescentBy κ α) α → Prop
  | refused {e : Failure α} {s' : Session σ (DescentBy κ α) α} :
      start P origin = (.error e, s') → Halts P origin 0 (.error e) s'
  | failed {i : Nat} {stand : Stand α} {e : Failure α} {s s' : Session σ (DescentBy κ α) α} :
      Reaches P origin i stand s → advance P i stand s = (.error e, s') →
        Halts P origin (i + 1) (.error e) s'
  | ended {i : Nat} {stand : Stand α} {s s' : Session σ (DescentBy κ α) α} :
      Reaches P origin i stand s → advance P i stand s = (.ok none, s') →
        Halts P origin (i + 1) (.ok s'.rule.outcome) s'

/-! ## Counts -/

/-- What has been asked for in `searches` searches with the given budget, and at the start. -/
structure Tally (budget searches : Nat) (p : Progress σ α) : Prop where
  gradientCount_eq : p.gradientCount = 1 + 2 * searches
  valueCount_le : p.valueCount ≤ 1 + searches * (budget + 2)

omit [Scalar α] in
theorem Tally.after {budget further : Nat} {p p' : Progress σ α} (h : Tally budget i p)
    (hasks : p.Asks (1 + further) 2 p') (hfurther : further ≤ budget + 1) :
    Tally budget (i + 1) p' where
  gradientCount_eq := by
    rw [hasks.gradientCount_eq, h.gradientCount_eq]
    omega
  valueCount_le := by
    have hle := h.valueCount_le
    rw [hasks.valueCount_eq, Nat.succ_mul]
    omega

theorem leads_start_tally (budget : Nat) (s : Session σ (DescentBy κ α) α) :
    Leads (start P) s
      (fun _ s' => Tally budget 0 s'.progress ∧ s'.progress.value.isSome = true)
      (fun _ _ => True) := by
  unfold start resetStrategy Problem.settleWithGradient
  simp only [leads_bind, leads_reset, leads_get, leads_ite, leads_throw, leads_work, leads_modify,
    leads_remember, leads_pure]
  refine ⟨fun _ => trivial, fun _ => ?_⟩
  refine (leads_valueAndGradient_asks P _ _).mono (fun _ p h => ⟨⟨?_, ?_⟩, rfl⟩)
    fun _ _ _ => trivial
  · exact h.gradientCount_eq
  · rw [Nat.zero_mul]
    exact Nat.le_of_eq h.valueCount_eq

theorem leads_searchFrom_asks (hvalue : s.progress.value.isSome = true) :
    Leads (searchFrom P stand) s
      (fun _ s' => ∃ further ≤ s.rule.maxIterations + 1,
        s.progress.Asks (1 + further) 2 s'.progress)
      (fun _ _ => True) := by
  unfold searchFrom
  rw [leads_bind, leads_get, leads_bind, leads_attempt]
  split
  · rw [leads_work]
    refine (LineSearch.leads_search_concludes _ P _ _ _ _).mono (fun r p' h => ?_)
      fun _ _ _ => trivial
    obtain ⟨further, hfollow, hasks⟩ := h.asks
    rw [LineSearch.valuesAtOrigin, if_pos hvalue, Nat.zero_add] at hasks
    refine ⟨further, ?_, hasks⟩
    unfold LineSearch.Follow at hfollow
    split at hfollow
    · exact Nat.le_succ_of_le hfollow
    · exact Nat.le_of_eq hfollow
  · trivial

theorem leads_advance_tally (stand : Stand α) (htally : Tally s.rule.maxIterations i s.progress)
    (hvalue : s.progress.value.isSome = true) :
    Leads (advance P i stand) s
      (fun _ s' => Tally s.rule.maxIterations (i + 1) s'.progress ∧
        s'.progress.value.isSome = true)
      (fun _ _ => True) := by
  apply leads_advance
  refine (leads_searchFrom_asks hvalue).mono (fun r s₁ h => ?_) fun _ _ _ => trivial
  obtain ⟨further, hfurther, hasks⟩ := h
  have htally₁ := htally.after hasks hfurther
  refine ⟨fun _ _ => ⟨⟨htally₁.1, htally₁.2⟩, rfl⟩, fun _ => ?_⟩
  refine (leads_nextDirection stand _).mono (fun direction s₂ h₂ _ _ _ => ?_) fun _ _ _ => trivial
  rw [h₂.1]
  exact ⟨⟨htally₁.1, htally₁.2⟩, rfl⟩

/-! ## Runs -/

def Counted (P : Problem σ α) (origin : Session σ (DescentBy κ α) α) (answer : Checked α Outcome)
    (s' : Session σ (DescentBy κ α) α) : Prop :=
  ∃ searches ≤ origin.rule.maxIterations + 1, Halts P origin searches answer s' ∧
    ∀ o, answer = .ok o → Tally origin.rule.maxIterations searches s'.progress

/-- Where a run goes on from: the rule is as the reset left it, and the counts are those of the
searches so far. -/
structure Goes (P : Problem σ α) (origin : Session σ (DescentBy κ α) α) (i : Nat)
    (stand : Stand α) (s : Session σ (DescentBy κ α) α) : Prop where
  reaches : Reaches P origin i stand s
  rule_eq : s.rule = origin.rule.reset
  tally : Tally origin.rule.maxIterations i s.progress
  stored : s.progress.value.isSome = true

theorem leads_advance_counted (h : Goes P origin i stand s) (hi : i ≤ origin.rule.maxIterations) :
    Leads (advance P i stand) s
      (fun next s' => match next with
        | none => Counted P origin (.ok s'.rule.outcome) s'
        | some next => Goes P origin (i + 1) next s' ∧ i < origin.rule.maxIterations)
      (fun e s' => Counted P origin (.error e) s') := by
  have hbudget : s.rule.maxIterations = origin.rule.maxIterations := by rw [h.rule_eq]; rfl
  have htally := leads_advance_tally (P := P) stand (hbudget ▸ h.tally) h.stored
  refine ((leads_advance_concludes h.reaches h.rule_eq).and htally).mono_run
    (fun next s' hrun h' => ?_)
    fun e s' hrun _ => ⟨i + 1, Nat.succ_le_succ hi, .failed h.reaches hrun, nofun⟩
  obtain ⟨hnext, htally', hstored'⟩ := h'
  rw [hbudget] at htally'
  cases next with
  | none => exact ⟨i + 1, Nat.succ_le_succ hi, .ended h.reaches hrun, fun _ _ => htally'⟩
  | some next => exact ⟨⟨hnext.1, hnext.2.1, htally', hstored'⟩, hnext.2.2⟩

/-- The budget is not spent before the run ends, so that no search is left out. -/
theorem leads_descend_counted (more : Nat) (h : Goes P origin i stand s)
    (hmore : i + more = origin.rule.maxIterations) :
    Leads (descend P more i stand) s (fun o => Counted P origin (.ok o))
      (fun e => Counted P origin (.error e)) := by
  induction more generalizing i stand s with
  | zero =>
      unfold descend
      refine (leads_advance_counted h (by omega)).bind fun next s' hnext => ?_
      cases next with
      | none => exact hnext
      | some next =>
          obtain ⟨-, hlt⟩ := hnext
          omega
  | succ more ih =>
      unfold descend
      refine (leads_advance_counted h (by omega)).bind fun next s' hnext => ?_
      cases next with
      | none => exact hnext
      | some next => exact ih hnext.1 (by omega)

theorem leads_minimize_counted (s : Session σ (DescentBy κ α) α) :
    Leads (minimize P) s (fun o => Counted P s (.ok o)) (fun e => Counted P s (.error e)) := by
  unfold minimize
  rw [leads_bind]
  refine ((leads_start_rule s).and (leads_start_tally s.rule.maxIterations s)).mono_run
    (fun stand s₁ hrun h => ?_) fun e s₁ hrun _ => ⟨0, Nat.zero_le _, .refused hrun, nofun⟩
  obtain ⟨hrule, htally, hvalue⟩ := h
  rw [leads_bind, leads_get]
  refine leads_descend_counted _ ⟨.start hrun, hrule, htally, hvalue⟩ ?_
  rw [hrule, Nat.zero_add]
  rfl

/-- For any strategy, search and objective, a run with a budget of `n` iterations ends by itself,
after at most `n + 1` searches.  A run that ends with an outcome has asked for one gradient and two
more for each search, and for at most `1 + (n + 1) (n + 2)` values. -/
theorem minimize_ends_within_budget (P : Problem σ α) (s : Session σ (DescentBy κ α) α) :
    ∃ searches ≤ s.rule.maxIterations + 1,
      Halts P s searches (minimize P s).1 (minimize P s).2 ∧
      ∀ o, (minimize P s).1 = .ok o →
        (minimize P s).2.progress.gradientCount = 1 + 2 * searches ∧
        (minimize P s).2.progress.valueCount ≤
          1 + (s.rule.maxIterations + 1) * (s.rule.maxIterations + 2) := by
  have hcounted : Counted P s (minimize P s).1 (minimize P s).2 := by
    have h := leads_minimize_counted (P := P) s
    unfold Leads at h
    rcases hrun : minimize P s with ⟨answer, s'⟩
    rw [hrun] at h
    cases answer with
    | ok o => exact h
    | error e => exact h
  obtain ⟨searches, hle, hhalts, htally⟩ := hcounted
  refine ⟨searches, hle, hhalts, fun o ho => ⟨(htally o ho).gradientCount_eq, ?_⟩⟩
  have hvalues := (htally o ho).valueCount_le
  have hbound := Nat.mul_le_mul_right (s.rule.maxIterations + 2) hle
  omega

def undefinedCost : Cost Float := { parabola with value := fun _ => .ok (0 / 0) }

example :
    (minimize ⟨undefinedCost.objective, Constraint.none.region⟩
      (fromOne conjugateGradient)).2.progress.gradientCount = 1 + 2 * (3 + 1) := by
  decide +kernel

end Minima.Descent
