import Minima.Proofs.Simplex.Failures
import Minima.Proofs.StoppingRule

/-!
# Outcomes of the simplex method

An iteration ranks the vertices, asks whether the run ends, and makes its moves.  A run is
iteration after iteration, and keeps the rule as the reset left it until the last one, so that
its outcome follows from the last iteration alone.
-/

namespace Minima.Simplex

variable {σ α : Type} [Scalar α] {P : Problem σ α} {n iteration : Nat}
  {origin s s' : Session σ (Simplex α) α}

/-! ## Iterations -/

def rank (n : Nat) : Run σ (Simplex α) α Ranking := do
  Run.remember fun s => { s with sum := sumOf n s.vertices }
  return ranking (← get).memory.values

def pass (P : Problem σ α) (n iteration : Nat) : Run σ (Simplex α) α (Option Outcome) := do
  let r ← rank n
  if ← finished n iteration then return some (← finish r.lowest iteration)
  else if ← moves P r then return none
  else
    Run.mark .stationaryValue
    settle r.lowest
    return some .stationaryValue

theorem iterate_succ (more iteration : Nat) :
    iterate P n (more + 1) iteration =
      pass P n iteration >>= fun
        | none => iterate P n more (iteration + 1)
        | some o => return o := by
  simp only [iterate, pass, rank, bind_assoc, pure_bind]
  refine bind_congr fun _ => ?_
  refine bind_congr fun s => ?_
  refine bind_congr fun stops => ?_
  cases stops with
  | true => simp only [if_true, bind_assoc, pure_bind, bind_pure]
  | false =>
      simp only [Bool.false_eq_true, if_false, bind_assoc]
      refine bind_congr fun room => ?_
      cases room with
      | true => simp only [if_true, pure_bind]
      | false => simp only [Bool.false_eq_true, if_false, bind_assoc, pure_bind]

/-- The sessions in which the iterations of a run from `origin` begin, with their numbers. -/
inductive Reaches (P : Problem σ α) (origin : Session σ (Simplex α) α) :
    Nat → Session σ (Simplex α) α → Prop
  | start {vertices : List (Vec α)} {s s' : Session σ (Simplex α) α} :
      start P origin = (.ok vertices, s) → evaluateVertices P vertices s = (.ok (), s') →
        Reaches P origin 1 s'
  | pass {iteration : Nat} {s s' : Session σ (Simplex α) α} :
      Reaches P origin iteration s →
        pass P origin.progress.point.length iteration s = (.ok none, s') →
        Reaches P origin (iteration + 1) s'

/-! ## Outcomes -/

def outcomeAfter (budget iteration : Nat) (stops : Bool) : Outcome :=
  if stops then if iteration < budget then .stationaryPoint else .maxIterations
  else .stationaryValue

theorem outcomeAfter_ne_running (budget iteration : Nat) (stops : Bool) :
    outcomeAfter budget iteration stops ≠ .running := by
  unfold outcomeAfter
  repeat' split
  all_goals nofun

def Ends (P : Problem σ α) (origin : Session σ (Simplex α) α) (iteration : Nat) (stops : Bool)
    (s' : Session σ (Simplex α) α) : Prop :=
  ∃ s r s₁ t o, Reaches P origin iteration s ∧ rank origin.progress.point.length s = (.ok r, s₁) ∧
    finished origin.progress.point.length iteration s₁ = (.ok stops, t) ∧
    pass P origin.progress.point.length iteration s = (.ok (some o), s')

def Concludes (P : Problem σ α) (origin : Session σ (Simplex α) α) (o : Outcome)
    (s' : Session σ (Simplex α) α) : Prop :=
  o = s'.rule.outcome ∧ ∃ last stops, Ends P origin last stops s' ∧
    o = outcomeAfter origin.rule.maxIterations last stops ∧
    (stops = false → last < origin.rule.maxIterations)

theorem leads_finished_budget (s : Session σ (Simplex α) α) :
    Leads (finished n iteration) s
      (fun stops s' => s'.rule.maxIterations = s.rule.maxIterations ∧
        (stops = false → s'.rule = s.rule ∧ iteration < s.rule.maxIterations))
      (fun _ _ => True) := by
  unfold finished
  simp only [leads_bind, leads_get, leads_ite, leads_pure, leads_check]
  exact ⟨fun _ => ⟨trivial, by simp⟩, fun _ => ⟨StoppingRule.maxIterations_checkMaxIterations _ _,
    fun hgoes => StoppingRule.checkMaxIterations_eq_false hgoes⟩⟩

theorem leads_finish_outcome (lowest : Nat) (s : Session σ (Simplex α) α) :
    Leads (finish lowest iteration) s
      (fun o s' => o = s'.rule.outcome ∧ o = outcomeAfter s.rule.maxIterations iteration true)
      (fun _ _ => True) := by
  unfold finish settle
  simp only [leads_bind, leads_mark, leads_check, leads_get, leads_settle, leads_outcome]
  exact ⟨trivial, StoppingRule.outcome_checkMaxIterations _ _⟩

theorem leads_pass_outcome (n iteration : Nat) (s : Session σ (Simplex α) α) :
    Leads (pass P n iteration) s
      (fun ended s' => ∃ r s₁ stops t, rank n s = (.ok r, s₁) ∧
        finished n iteration s₁ = (.ok stops, t) ∧
        (stops = false → iteration < s.rule.maxIterations) ∧
        match ended with
        | none => s'.rule = s.rule ∧ stops = false
        | some o => o = s'.rule.outcome ∧ o = outcomeAfter s.rule.maxIterations iteration stops)
      (fun _ _ => True) := by
  have hrank (c : StoppingRule α) :
      Upholds (fun s : Session σ (Simplex α) α => s.rule = c) (fun _ s => s.rule = c) (rank n) :=
    ((P.bears_rule c).remember _).bind fun _ => upholds_get.bind fun _ => upholds_pure _
  unfold pass
  rw [leads_bind]
  refine (hrank s.rule s rfl).mono_run (fun r s₁ hranked hrule => ?_) fun _ _ _ _ => trivial
  rw [leads_bind, ← hrule]
  refine (leads_finished_budget s₁).imp_run fun stops t hfinished ht => ?_
  rw [leads_ite]
  constructor
  · intro hstops
    obtain rfl : stops = true := hstops
    rw [leads_bind]
    refine (leads_finish_outcome r.lowest t).mono (fun o s' ho => ?_) fun _ _ _ => trivial
    exact ⟨r, s₁, true, t, hranked, hfinished, nofun, ho.1, ht.1 ▸ ho.2⟩
  · intro hstops
    obtain rfl : stops = false := (Bool.not_eq_true _).mp hstops
    obtain ⟨hsame, hlt⟩ := ht.2 rfl
    rw [leads_bind]
    refine (upholds_moves (P.bears_rule s₁.rule) r t hsame).mono (fun room s₂ h₂ => ?_)
      fun _ _ _ => trivial
    unfold settle
    simp only [leads_ite, leads_pure, leads_bind, leads_mark, leads_get, leads_settle]
    refine ⟨fun _ => ⟨r, s₁, false, t, hranked, hfinished, fun _ => hlt, h₂, rfl⟩, fun _ => ?_⟩
    exact ⟨r, s₁, false, t, hranked, hfinished, fun _ => hlt, rfl, rfl⟩

theorem leads_iterate_outcome (more : Nat) (hreaches : Reaches P origin iteration s)
    (hrule : s.rule = origin.rule.reset) (hle : iteration ≤ origin.rule.maxIterations)
    (hmore : iteration + more = origin.rule.maxIterations + 1) :
    Leads (iterate P origin.progress.point.length more iteration) s
      (Concludes P origin) (fun _ _ => True) := by
  have hbudget : s.rule.maxIterations = origin.rule.maxIterations := by rw [hrule]; rfl
  induction more generalizing iteration s with
  | zero => omega
  | succ more ih =>
      rw [iterate_succ, leads_bind]
      refine (leads_pass_outcome _ iteration s).imp_run fun ended s' hpass h => ?_
      obtain ⟨r, s₁, stops, t, hranked, hfinished, hlt, hended⟩ := h
      rw [hbudget] at hlt hended
      cases ended with
      | some o =>
          exact ⟨hended.1, iteration, stops, ⟨s, r, s₁, t, o, hreaches, hranked, hfinished, hpass⟩,
            hended.2, hlt⟩
      | none =>
          obtain ⟨hsame, rfl⟩ := hended
          have hrule' : s'.rule = origin.rule.reset := hsame.trans hrule
          exact ih (.pass hreaches hpass) hrule' (hlt rfl) (by omega) (by rw [hrule']; rfl)

theorem leads_minimize_outcome (s : Session σ (Simplex α) α) :
    Leads (minimize P) s (Concludes P s) (fun _ _ => True) := by
  have hstart : Leads (start P) s
      (fun _ s' => s'.rule = s.rule.reset ∧ s'.progress.point = s.progress.point)
      (fun _ _ => True) := by
    unfold start
    simp only [leads_bind, leads_reset, leads_get, leads_attempt, leads_remember, leads_pure]
    cases checkedVertices P.region s.progress.reset.point s.memory.lambda with
    | error e => trivial
    | ok vertices => exact ⟨trivial, rfl⟩
  unfold minimize
  rw [leads_bind]
  refine hstart.imp_run fun vertices s₁ hlaid h₁ => ?_
  obtain ⟨hrule, hpoint⟩ := h₁
  unfold proceed
  rw [leads_bind, leads_get, hpoint, leads_bind]
  refine (upholds_evaluateVertices (P.bears_rule s₁.rule) vertices s₁ rfl).mono_run
    (fun _ s₂ hevaluated h₂ => ?_) fun _ _ _ _ => trivial
  have hrule₂ : s₂.rule = s.rule.reset := h₂.trans hrule
  rw [leads_bind, leads_get, hrule₂]
  exact leads_iterate_outcome _ (.start hlaid hevaluated) hrule₂ s.rule.maxIterations_pos
    (Nat.add_comm _ _)

end Minima.Simplex
