import Minima.Proofs.Descent.Accepted
import Minima.Proofs.StoppingRule
import Minima.Proofs.Upholds

/-!
# Outcomes of the descent methods

The rule stays as the reset left it until the last search, so the outcome of a run follows from
that search and from the iteration that it was made in.
-/

namespace Minima.Descent

variable {κ σ α : Type} {i : Nat}

def outcomeAfter (budget i : Nat) (r : SearchResult α) : Outcome :=
  if r.succeeded then if i < budget then .stationaryValue else .maxIterations else .unknown

theorem outcomeAfter_ne_running (budget i : Nat) (r : SearchResult α) :
    outcomeAfter budget i r ≠ .running := by
  unfold outcomeAfter
  repeat' split
  all_goals nofun

theorem outcomeAfter_eq_unknown_iff {budget : Nat} {r : SearchResult α} :
    outcomeAfter budget i r = .unknown ↔ r.succeeded = false := by
  unfold outcomeAfter
  cases r.succeeded with
  | false => exact ⟨fun _ => rfl, fun _ => rfl⟩
  | true =>
      refine ⟨fun h => ?_, nofun⟩
      repeat' split at h
      all_goals contradiction

theorem outcomeAfter_of_le {budget : Nat} {r : SearchResult α} (hr : r.succeeded = true)
    (h : budget ≤ i) : outcomeAfter budget i r = .maxIterations := by
  unfold outcomeAfter
  rw [if_pos hr, if_neg (Nat.not_lt.mpr h)]

variable [Scalar α] [Directions κ α] {P : Problem σ α} {stand : Stand α}
  {origin s s' : Session σ (DescentBy κ α) α}

def Ends (P : Problem σ α) (origin : Session σ (DescentBy κ α) α) (i : Nat) (r : SearchResult α)
    (s' : Session σ (DescentBy κ α) α) : Prop :=
  ∃ stand s t, Reaches P origin i stand s ∧ searchFrom P stand s = (.ok r, t) ∧
    advance P i stand s = (.ok none, s')

def Concludes (P : Problem σ α) (origin : Session σ (DescentBy κ α) α) (o : Outcome)
    (s' : Session σ (DescentBy κ α) α) : Prop :=
  o = s'.rule.outcome ∧
    ∃ i r, Ends P origin i r s' ∧ o = outcomeAfter origin.rule.maxIterations i r

theorem upholds_searchFrom_rule (c : StoppingRule α) (stand : Stand α) :
    Upholds (fun s : Session σ (DescentBy κ α) α => s.rule = c) (fun _ s => s.rule = c)
      (searchFrom P stand) := by
  refine upholds_get.bind fun s => Upholds.bind (upholds_attempt fun _ _ _ h => h) fun step => ?_
  exact upholds_work_rule c _

theorem upholds_nextDirection_rule (c : StoppingRule α) (stand : Stand α) (current : Visited α) :
    Upholds (fun s : Session σ (DescentBy κ α) α => s.rule = c) (fun _ s => s.rule = c)
      (nextDirection stand current) := by
  refine upholds_get.bind fun s => Upholds.bind (upholds_attempt fun _ _ _ h => h) fun next => ?_
  refine Upholds.bind (fun _ h => h) fun _ => ?_
  refine Upholds.bind (upholds_attempt fun _ _ _ h => h) fun descends => ?_
  exact .ite (fun _ h => h) (upholds_pure _)

theorem leads_advance_outcome (hrunning : s.rule.outcome = .running) :
    Leads (advance P i stand) s
      (fun next s' => ∃ r t, searchFrom P stand s = (.ok r, t) ∧ match next with
        | some _ => s'.rule = s.rule ∧ i < s.rule.maxIterations
        | none => s'.rule.outcome = outcomeAfter s.rule.maxIterations i r)
      (fun _ _ => True) := by
  unfold advance
  rw [leads_bind]
  refine (upholds_searchFrom_rule s.rule stand s rfl).mono_run (fun r t hsearch ht => ?_)
    fun _ _ _ _ => trivial
  rw [leads_ite]
  constructor
  · intro hfailed
    unfold Problem.settleWithGradient
    simp only [leads_bind, leads_outcome, leads_ite, leads_mark, leads_work, leads_modify,
      leads_pure]
    have hr : r.succeeded = false := by simpa using hfailed
    refine ⟨fun _ => ⟨r, t, hsearch, ?_⟩, fun hterminal => ?_⟩
    · unfold outcomeAfter
      rw [hr]
      rfl
    · rw [ht, hrunning] at hterminal
      exact absurd rfl hterminal
  · intro hsucceeded
    have hr : r.succeeded = true := by simpa using hsucceeded
    have hend {c : StoppingRule α} (hc : c.maxIterations = s.rule.maxIterations) :
        ((c.mark .stationaryValue).2.checkMaxIterations i).2.outcome =
          outcomeAfter s.rule.maxIterations i r := by
      rw [StoppingRule.outcome_checkMaxIterations, outcomeAfter, if_pos hr, ← hc]
      rfl
    rw [leads_bind]
    refine (upholds_nextDirection_rule s.rule stand _ t ht).mono (fun direction s₂ h₂ => ?_)
      fun _ _ _ => trivial
    unfold Problem.settleWithGradient
    simp only [leads_bind, leads_get, leads_ite, leads_check, leads_mark, leads_work, leads_modify,
      leads_pure]
    rw [h₂]
    refine ⟨fun _ => ⟨fun _ => ⟨r, t, hsearch, hend rfl⟩, fun hnot => absurd trivial hnot⟩,
      fun _ => ⟨fun _ => ⟨r, t, hsearch, hend ?_⟩, fun hgoes => ⟨r, t, hsearch, ?_⟩⟩⟩
    · exact StoppingRule.maxIterations_checkMaxIterations _ _
    · exact StoppingRule.checkMaxIterations_eq_false ((Bool.not_eq_true _).mp hgoes)

theorem leads_advance_concludes (hreaches : Reaches P origin i stand s)
    (hrule : s.rule = origin.rule.reset) :
    Leads (advance P i stand) s
      (fun next s' => match next with
        | some next => Reaches P origin (i + 1) next s' ∧ s'.rule = origin.rule.reset ∧
            i < origin.rule.maxIterations
        | none => Concludes P origin s'.rule.outcome s')
      (fun _ _ => True) := by
  have hbudget : s.rule.maxIterations = origin.rule.maxIterations := by rw [hrule]; rfl
  refine (leads_advance_outcome (by rw [hrule]; rfl)).imp_run fun next s' hrun h => ?_
  obtain ⟨r, t, hsearch, hnext⟩ := h
  rw [hbudget] at hnext
  cases next with
  | none => exact ⟨rfl, i, r, ⟨stand, s, t, hreaches, hsearch, hrun⟩, hnext⟩
  | some next => exact ⟨.advance hreaches hrun, hnext.1.trans hrule, hnext.2⟩

theorem leads_descend_outcome (more : Nat) (hreaches : Reaches P origin i stand s)
    (hrule : s.rule = origin.rule.reset) (hmore : i + more = origin.rule.maxIterations) :
    Leads (descend P more i stand) s (Concludes P origin) (fun _ _ => True) := by
  induction more generalizing i stand s with
  | zero =>
      unfold descend
      refine (leads_advance_concludes hreaches hrule).bind fun next s' hnext => ?_
      cases next with
      | none => exact hnext
      | some next =>
          obtain ⟨-, -, hlt⟩ := hnext
          omega
  | succ more ih =>
      unfold descend
      refine (leads_advance_concludes hreaches hrule).bind fun next s' hnext => ?_
      cases next with
      | none => exact hnext
      | some next => exact ih hnext.1 hnext.2.1 (by omega)

theorem leads_start_rule (s : Session σ (DescentBy κ α) α) :
    Leads (start P) s (fun _ s' => s'.rule = s.rule.reset) (fun _ _ => True) := by
  have hrest (c : StoppingRule α) (x : Vec α) :
      Upholds (fun s : Session σ (DescentBy κ α) α => s.rule = c) (fun _ s => s.rule = c)
        (evaluateStart P x) :=
    (upholds_work_rule c _).bind fun _ => Upholds.bind (fun _ h => h) fun _ =>
      Upholds.bind (fun _ h => h) fun _ => upholds_pure _
  unfold start
  rw [leads_bind, leads_reset, leads_bind, leads_get, leads_ite]
  constructor
  · exact fun _ => trivial
  · exact fun _ => (hrest _ _ ⟨s.progress.reset, s.rule.reset, s.memory⟩ rfl).mono
      (fun _ _ h => h) fun _ _ _ => trivial

theorem leads_minimize_outcome (s : Session σ (DescentBy κ α) α) :
    Leads (minimize P) s (Concludes P s) (fun _ _ => True) := by
  unfold minimize
  rw [leads_bind]
  refine (leads_start_rule s).imp_run fun stand s₁ hrun hrule => ?_
  rw [leads_bind, leads_get]
  refine leads_descend_outcome _ (.start hrun) hrule ?_
  rw [hrule, Nat.zero_add]
  rfl

end Minima.Descent
