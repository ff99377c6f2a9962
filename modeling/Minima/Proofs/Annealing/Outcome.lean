import Minima.Proofs.Annealing.Best
import Minima.Proofs.Annealing.Failures

/-!
# Outcomes of simulated annealing

The check of the points changes the streak of the rule in every pass, and the outcome only when
it fires.  The budget is checked where it does not.
-/

namespace Minima.Annealing

variable {ρ σ α : Type} [Scalar α] {P : Problem σ α} {clock : Clock α}
  {state : State α} {origin s s' : Session σ (Annealing ρ α) α}

theorem leads_start_rule (s : Session σ (Annealing ρ α) α) :
    Leads (start P) s (fun first s' => s'.rule = s.rule.reset ∧ first.1.iteration = 0)
      (fun _ _ => True) := by
  unfold start
  simp only [leads_bind, leads_reset, leads_get, leads_ite, leads_throw, leads_attempt]
  refine ⟨fun _ => trivial, fun _ => ⟨fun _ => trivial, fun _ => ?_⟩⟩
  cases Simplex.initialVertices P.region s.progress.reset.point s.memory.lambda with
  | error e => trivial
  | ok vertices =>
      exact (upholds_mapM (upholds_evaluate (P.bears_rule s.rule.reset)) _ rfl).mono
        (fun _ _ h => ⟨h, rfl⟩) fun _ _ _ => trivial

def outcomeAfter (still : Bool) : Outcome := if still then .stationaryPoint else .maxIterations

theorem outcomeAfter_ne_running (still : Bool) : outcomeAfter still ≠ .running := by
  cases still with
  | true => nofun
  | false => nofun

variable [RandomSource ρ]

/-- The run ends in a pass that begins at the given iteration, because its points are stationary
or else because the budget is spent. -/
def Ends (P : Problem σ α) (origin : Session σ (Annealing ρ α) α) (iteration : Nat) (still : Bool)
    (s' : Session σ (Annealing ρ α) α) : Prop :=
  ∃ clock state s r s₁ t, Reaches P origin clock state s ∧ clock.iteration = iteration ∧
    rank (-clock.temperature) state.values s = (.ok r, s₁) ∧
    Run.check (·.checkStationaryPoint (Simplex.size state.sum.length state.vertices) 0) s₁ =
      (.ok still, t) ∧
    pass P clock state s = (.ok none, s')

theorem leads_moves_spent (cold : α) (r : NoisyRanking α) (state : State α)
    (s : Session σ (Annealing ρ α) α) :
    Leads (moves P cold r state) s (fun made _ => 1 ≤ made.1) (fun _ _ => True) := by
  unfold moves
  simp only [leads_bind, leads_ite, leads_pure]
  refine (leads_true _ _).imp fun reflected s₁ _ => ?_
  refine ⟨fun _ => ?_, fun _ => ⟨fun _ => ?_, fun _ => le_rfl⟩⟩
  · exact (leads_true _ _).imp fun _ _ _ => one_le_two
  · refine (leads_true _ _).imp fun contracted s₂ _ => ⟨fun _ => ?_, fun _ => one_le_two⟩
    exact (leads_true _ _).imp fun _ _ _ => Nat.le_add_right_of_le one_le_two

theorem leads_pass_outcome (clock : Clock α) (state : State α)
    (hrunning : s.rule.outcome = .running) :
    Leads (pass P clock state) s
      (fun next s' => ∃ r s₁ still t, rank (-clock.temperature) state.values s = (.ok r, s₁) ∧
        Run.check (·.checkStationaryPoint (Simplex.size state.sum.length state.vertices) 0) s₁ =
          (.ok still, t) ∧
        match next with
        | some (next, _) => s'.rule.outcome = .running ∧
            s'.rule.maxIterations = s.rule.maxIterations ∧
            clock.iteration < s.rule.maxIterations ∧ clock.iteration < next.iteration
        | none => s'.rule.outcome = outcomeAfter still ∧
            (still = false → s.rule.maxIterations ≤ clock.iteration))
      (fun _ _ => True) := by
  unfold pass finished
  rw [leads_bind]
  refine (upholds_rank (P.bears_rule s.rule) _ _ s rfl).mono_run (fun r s₁ hranked hrule => ?_)
    fun _ _ _ _ => trivial
  simp only [leads_bind]
  have hstill : Leads
      (Run.check (·.checkStationaryPoint (Simplex.size state.sum.length state.vertices) 0)) s₁
      (fun still t => t.rule.outcome = (if still then .stationaryPoint else .running) ∧
        t.rule.maxIterations = s.rule.maxIterations) (fun _ _ => True) := by
    rw [leads_check]
    unfold StoppingRule.checkStationaryPoint
    rw [StoppingRule.outcome_checkStationary, StoppingRule.maxIterations_checkStationary, hrule,
      hrunning]
    exact ⟨rfl, rfl⟩
  refine hstill.imp_run fun still t hchecked ht => ?_
  cases still with
  | true =>
      simp only [if_true, leads_pure, leads_bind, leads_settle]
      exact ⟨r, s₁, true, t, hranked, hchecked, ht.1, by simp⟩
  | false =>
      simp only [Bool.false_eq_true, if_false, leads_check, leads_ite, leads_bind, leads_settle,
        leads_pure]
      constructor
      · intro hfires
        have hle : t.rule.maxIterations ≤ clock.iteration := by
          unfold StoppingRule.checkMaxIterations at hfires
          split at hfires
          · contradiction
          · omega
        refine ⟨r, s₁, false, t, hranked, hchecked, ?_, fun _ => ht.2 ▸ hle⟩
        rw [StoppingRule.checkMaxIterations_of_le hle]
        rfl
      · intro hgoes
        obtain ⟨hsame, hlt⟩ := StoppingRule.checkMaxIterations_eq_false (eq_false_of_ne_true hgoes)
        rw [hsame]
        refine ((upholds_moves (P.bears_rule t.rule) _ r _ t rfl).and
          (leads_moves_spent _ r _ t)).mono ?_ fun _ _ _ => trivial
        rintro ⟨spent, state'⟩ s₂ ⟨hrule₂, hspent⟩
        rw [leads_get]
        refine ⟨r, s₁, false, t, hranked, hchecked, ?_, ?_, ht.2 ▸ hlt, ?_⟩
        · rw [hrule₂, ht.1]
          rfl
        · rw [hrule₂, ht.2]
        · rw [iteration_advance]
          exact Nat.lt_add_of_pos_right hspent

def Concludes (P : Problem σ α) (origin : Session σ (Annealing ρ α) α) (o : Outcome)
    (s' : Session σ (Annealing ρ α) α) : Prop :=
  o = s'.rule.outcome ∧ ∃ last still, Ends P origin last still s' ∧ o = outcomeAfter still ∧
    (still = false → origin.rule.maxIterations ≤ last)

theorem leads_pass_concludes (hreaches : Reaches P origin clock state s)
    (hrunning : s.rule.outcome = .running)
    (hbudget : s.rule.maxIterations = origin.rule.maxIterations) :
    Leads (pass P clock state) s
      (fun next s' => match next with
        | some (next, state') => Reaches P origin next state' s' ∧ s'.rule.outcome = .running ∧
            s'.rule.maxIterations = origin.rule.maxIterations ∧
            clock.iteration < origin.rule.maxIterations ∧ clock.iteration < next.iteration
        | none => Concludes P origin s'.rule.outcome s')
      (fun _ _ => True) := by
  refine (leads_pass_outcome clock state hrunning).imp_run fun next s' hpass h => ?_
  obtain ⟨r, s₁, still, t, hranked, hchecked, hnext⟩ := h
  rw [hbudget] at hnext
  cases next with
  | none =>
      exact ⟨rfl, clock.iteration, still,
        ⟨clock, state, s, r, s₁, t, hreaches, rfl, hranked, hchecked, hpass⟩, hnext⟩
  | some next => exact ⟨.pass hreaches hpass, hnext⟩

theorem leads_passes_outcome (more : Nat) (hreaches : Reaches P origin clock state s)
    (hrunning : s.rule.outcome = .running)
    (hbudget : s.rule.maxIterations = origin.rule.maxIterations)
    (hmore : origin.rule.maxIterations ≤ clock.iteration + more) :
    Leads (passes P (more + 1) clock state) s (Concludes P origin) (fun _ _ => True) := by
  induction more generalizing clock state s with
  | zero =>
      rw [passes_succ]
      refine (leads_pass_concludes hreaches hrunning hbudget).bind fun next s' hnext => ?_
      cases next with
      | none => exact hnext
      | some next =>
          obtain ⟨-, -, -, hlt, -⟩ := hnext
          omega
  | succ more ih =>
      rw [passes_succ]
      refine (leads_pass_concludes hreaches hrunning hbudget).bind fun next s' hnext => ?_
      cases next with
      | none => exact hnext
      | some next =>
          obtain ⟨hreaches', hrunning', hbudget', -, hclock⟩ := hnext
          exact ih hreaches' hrunning' hbudget' (by omega)

theorem leads_minimize_outcome (s : Session σ (Annealing ρ α) α) :
    Leads (minimize P) s (Concludes P s) (fun _ _ => True) := by
  rw [minimize_eq, leads_bind]
  refine (leads_start_rule s).imp_run ?_
  rintro ⟨clock, state⟩ s₁ hstart ⟨hrule, hclock⟩
  rw [leads_bind, leads_get]
  refine leads_passes_outcome _ (.start hstart) (by rw [hrule]; rfl) (by rw [hrule]; rfl) ?_
  rw [hrule]
  exact Nat.le_add_left _ _

end Minima.Annealing
