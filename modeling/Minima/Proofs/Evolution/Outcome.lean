import Minima.Proofs.Evolution.Failures
import Minima.Proofs.StoppingRule

/-!
# Outcomes of differential evolution

A pass begins with the check of the budget and ends with the check of the leading cost, and a
run ends at the first check that fires.
-/

namespace Minima.Evolution

variable {ρ σ α : Type} [Scalar α] [RandomSource ρ] {P : Problem σ α} {box : Setup α}
  {state : State α} {k : Nat} {origin s s' : Session σ (Evolution ρ α) α}

inductive Lasts (P : Problem σ α) (origin : Session σ (Evolution ρ α) α) :
    Nat → Setup α → State α → Session σ (Evolution ρ α) α → Prop
  | start {box : Setup α} {first : State α} {s : Session σ (Evolution ρ α) α} :
      start P origin = (.ok (box, first), s) → Lasts P origin 0 box first s
  | pass {k : Nat} {box : Setup α} {state next : State α} {s s' : Session σ (Evolution ρ α) α} :
      Lasts P origin k box state s → pass P box k state s = (.ok (next, true), s') →
        Lasts P origin (k + 1) box next s'

def outcomeAfter (budget k : Nat) : Outcome :=
  if k < budget then .stationaryValue else .maxIterations

theorem outcomeAfter_ne_running (budget k : Nat) : outcomeAfter budget k ≠ .running := by
  unfold outcomeAfter
  split
  · nofun
  · nofun

def Stops (P : Problem σ α) (origin : Session σ (Evolution ρ α) α) (k : Nat) (last : State α)
    (s' : Session σ (Evolution ρ α) α) : Prop :=
  ∃ box state s, Lasts P origin k box state s ∧ pass P box k state s = (.ok (last, false), s')

def Ends (P : Problem σ α) (origin : Session σ (Evolution ρ α) α) (k : Nat)
    (s' : Session σ (Evolution ρ α) α) : Prop :=
  ∃ last s, Stops P origin k last s ∧ Settles last s s'

def Concludes (P : Problem σ α) (origin : Session σ (Evolution ρ α) α) (o : Outcome)
    (s' : Session σ (Evolution ρ α) α) : Prop :=
  o = s'.rule.outcome ∧ ∃ k, Ends P origin k s' ∧ o = outcomeAfter origin.rule.maxIterations k

theorem upholds_firstPopulation_rule (c : StoppingRule α) (box : Setup α) :
    Upholds (fun s : Session σ (Evolution ρ α) α => s.rule = c) (fun _ s => s.rule = c)
      (firstPopulation P box) := by
  have endures := endures_rule (ρ := ρ) P c
  refine upholds_get.bind fun s => ?_
  cases box.settings.initial with
  | some members =>
      refine upholds_mapM fun x => ?_
      rw [enter_eq]
      exact (upholds_attempt fun _ _ _ h => h).bind fun _ => endures.evaluate x
  | none =>
      have hmembers : Upholds (fun s : Session σ (Evolution ρ α) α => s.rule = c)
          (fun _ s => s.rule = c) (do
            let first ← evaluate P s.progress.point
            return first :: (← randomMembers P box (box.settings.members - 1))) :=
        (endures.evaluate _).bind fun _ =>
          (upholds_randomMembers endures box _).bind fun _ => upholds_pure _
      exact .ite (Upholds.bind (fun _ h => h) fun _ => hmembers) hmembers

theorem leads_start_rule (s : Session σ (Evolution ρ α) α) :
    Leads (start P) s (fun _ s' => s'.rule = s.rule.reset) (fun _ _ => True) := by
  unfold start
  simp only [leads_bind, leads_reset, leads_get, leads_ite, leads_throw, leads_attempt]
  refine ⟨fun _ => trivial, fun _ => ?_⟩
  cases setup P.region s.memory.settings s.progress.reset.point with
  | error e => trivial
  | ok box =>
      refine (upholds_firstPopulation_rule s.rule.reset _ _ rfl).mono (fun made s₁ h₁ => ?_)
        fun _ _ _ => trivial
      cases bestToFront made with
      | nil => trivial
      | cons first rest => exact h₁

theorem leads_pass_outcome (box : Setup α) (k : Nat) (state : State α)
    (hrunning : s.rule.outcome = .running) :
    Leads (pass P box k state) s
      (fun r s' => s'.rule.maxIterations = s.rule.maxIterations ∧
        if r.2 then s'.rule.outcome = .running ∧ k < s.rule.maxIterations
        else s'.rule.outcome = outcomeAfter s.rule.maxIterations k)
      (fun _ _ => True) := by
  unfold pass
  rw [leads_bind, leads_check, leads_ite]
  constructor
  · intro hfires
    refine ⟨StoppingRule.maxIterations_checkMaxIterations _ _, ?_⟩
    unfold StoppingRule.checkMaxIterations at hfires ⊢
    split at hfires
    · contradiction
    · rename_i hge
      unfold outcomeAfter
      rw [if_neg hge, if_neg hge]
      rfl
  · intro hgoes
    obtain ⟨hsame, hlt⟩ := StoppingRule.checkMaxIterations_eq_false (eq_false_of_ne_true hgoes)
    rw [hsame, leads_bind]
    refine (upholds_nextGeneration (endures_rule P s.rule) (fun _ h => h) box state s rfl).mono
      (fun bred t ht => ?_) fun _ _ _ => trivial
    rw [leads_bind, leads_check, leads_pure]
    unfold StoppingRule.checkStationaryValue outcomeAfter
    rw [StoppingRule.outcome_checkStationary, StoppingRule.maxIterations_checkStationary, ht,
      hrunning, if_pos hlt]
    refine ⟨rfl, ?_⟩
    cases (s.rule.checkStationary _ .stationaryValue).1 with
    | true => rfl
    | false => exact ⟨rfl, hlt⟩

theorem leads_pass_stops (hlasts : Lasts P origin k box state s)
    (hrunning : s.rule.outcome = .running)
    (hbudget : s.rule.maxIterations = origin.rule.maxIterations) :
    Leads (pass P box k state) s
      (fun r s' => if r.2 then Lasts P origin (k + 1) box r.1 s' ∧ s'.rule.outcome = .running ∧
          s'.rule.maxIterations = origin.rule.maxIterations ∧ k < origin.rule.maxIterations
        else Stops P origin k r.1 s' ∧
          s'.rule.outcome = outcomeAfter origin.rule.maxIterations k)
      (fun _ _ => True) := by
  refine (leads_pass_outcome box k state hrunning).imp_run ?_
  rw [hbudget]
  rintro ⟨next, goes⟩ s' hrun ⟨hbudget', hnext⟩
  cases goes with
  | false => exact ⟨⟨box, state, s, hlasts, hrun⟩, hnext⟩
  | true => exact ⟨.pass hlasts hrun, hnext.1, hbudget', hnext.2⟩

theorem leads_generations_outcome (more : Nat) (hlasts : Lasts P origin k box state s)
    (hrunning : s.rule.outcome = .running)
    (hbudget : s.rule.maxIterations = origin.rule.maxIterations)
    (hmore : k + more = origin.rule.maxIterations) :
    Leads (generations P box (more + 1) k state) s
      (fun last s' => ∃ k, Stops P origin k last s' ∧
        s'.rule.outcome = outcomeAfter origin.rule.maxIterations k)
      (fun _ _ => True) := by
  induction more generalizing k state s with
  | zero =>
      rw [generations]
      refine (leads_pass_stops hlasts hrunning hbudget).bind ?_
      rintro ⟨next, goes⟩ s' hnext
      cases goes with
      | false => exact ⟨k, hnext⟩
      | true =>
          obtain ⟨-, -, -, hlt⟩ := hnext
          omega
  | succ more ih =>
      rw [generations]
      refine (leads_pass_stops hlasts hrunning hbudget).bind ?_
      rintro ⟨next, goes⟩ s' hnext
      cases goes with
      | false => exact ⟨k, hnext⟩
      | true =>
          obtain ⟨hlasts', hrunning', hbudget', -⟩ := hnext
          exact ih hlasts' hrunning' hbudget' (by omega)

theorem leads_minimize_outcome (s : Session σ (Evolution ρ α) α) :
    Leads (minimize P) s (Concludes P s) (fun _ _ => True) := by
  unfold minimize
  rw [leads_bind]
  refine (leads_start_rule s).imp_run ?_
  rintro ⟨box, first⟩ s₁ hstart hrule
  rw [leads_bind, leads_get, hrule, leads_bind]
  refine (leads_generations_outcome _ (.start hstart) ?_ ?_ (Nat.zero_add _)).mono
    (fun last s₂ h₂ => ?_) fun _ _ _ => trivial
  · rw [hrule]
    rfl
  · rw [hrule]
    rfl
  · obtain ⟨k, hstops, houtcome⟩ := h₂
    simp only [leads_bind, leads_settle, leads_remember, leads_outcome]
    exact ⟨rfl, k, ⟨last, s₂, hstops, rfl, rfl, rfl, rfl⟩, houtcome⟩

end Minima.Evolution
