import Minima.Proofs.Double
import Minima.Proofs.Evolution.Best
import Minima.Proofs.Evolution.Outcome

/-!
# Finite answers

The value that a run reports is finite as soon as one of its evaluations had a finite cost.  If
none has, every member is infinitely bad.  The difference of two such costs is undefined, which
the stopping rule takes for no change: the run goes on for as many generations as the stationary
budget allows and is then taken to have converged.
-/

namespace Minima.Evolution

section Idle

variable {ρ σ α : Type} [Scalar α] [RandomSource ρ] {P : Problem σ α}
  {trail : σ → List (Vec α) → Prop} {origin : σ} {Trial : Vec α → Prop} {box : Setup α}
  {state : State α} {seen : List (Candidate α)} {k : Nat}
  {s s₁ : Session σ (Evolution ρ α) α}

def Idles (P : Problem σ α) : Prop :=
  ∀ x o, penalized (P.objective.value x o).1 = Scalar.infinity

omit [Scalar α] [RandomSource ρ] in
theorem Breeds.exists_leadingCost (h : Breeds state s seen) :
    ∃ c ∈ seen, state.leadingCost = c.cost := by
  unfold State.leadingCost
  split
  · rename_i c rest hpopulation
    exact ⟨c, h.mem_population c (hpopulation ▸ List.mem_cons_self), rfl⟩
  · exact ⟨state.best, h.mem_best, rfl⟩

omit [RandomSource ρ] in
theorem Evaluates.leadingCost_eq (idles : Idles P)
    (h : Evaluates P trail Trial s seen) (hbreeds : Breeds state s seen) :
    state.leadingCost = Scalar.infinity := by
  obtain ⟨c, hc, hleading⟩ := hbreeds.exists_leadingCost
  obtain ⟨o, hcost⟩ := h.cost_eq c hc
  rw [hleading, hcost, idles]

/-- The rule of a run that has seen no change in `k` generations. -/
def stillFor (c : StoppingRule α) (k : Nat) : StoppingRule α :=
  { c with outcome := .running, streak := k }

theorem leads_pass_idles (idles : Idles P)
    (hstill : ∀ ε : α, ¬ ε ≤ Scalar.abs (Scalar.infinity - Scalar.infinity))
    (tracks : P.objective.Tracks origin trail) (governs : Governs P s Trial)
    (hlives : Lives P trail Trial s box state s₁) (hrule : s₁.rule = stillFor s.rule k) :
    Leads (pass P box k state) s₁
      (fun r s' =>
        if r.2 then Lives P trail Trial s box r.1 s' ∧ s'.rule = stillFor s.rule (k + 1) ∧
          k < s.rule.maxIterations ∧ k < s.rule.stationaryBudget
        else s'.rule.outcome = outcomeAfter s.rule.maxIterations k ∧
          (k < s.rule.maxIterations → s.rule.stationaryBudget ≤ k))
      (fun _ _ => True) := by
  obtain ⟨hsetup, seen, hbreeds, h₁⟩ := hlives
  unfold pass
  rw [leads_bind, leads_check, leads_ite, hrule]
  by_cases hlt : k < s.rule.maxIterations
  · have hcheck : (stillFor s.rule k).checkMaxIterations k = (false, stillFor s.rule k) :=
      if_pos hlt
    rw [hcheck]
    refine ⟨nofun, fun _ => ?_⟩
    rw [leads_bind]
    have hbreeds' : Breeds state { s₁ with rule := stillFor s.rule k } seen := hbreeds.congr rfl
    refine ((leads_nextGeneration tracks (governs.admits hsetup) hbreeds' (h₁.congr rfl)).and
      (upholds_nextGeneration (endures_rule P (stillFor s.rule k)) (fun _ h => h) box state _
        rfl)).mono ?_ fun _ _ _ => trivial
    rintro bred s₂ ⟨⟨made, -, hnext, h₂⟩, hrule₂⟩
    rw [leads_bind, leads_check, leads_pure, hrule₂, StoppingRule.checkStationaryValue,
      h₁.leadingCost_eq idles hbreeds, h₂.leadingCost_eq idles hnext,
      decide_eq_false (hstill _), StoppingRule.checkStationary]
    by_cases hle : k + 1 ≤ s.rule.stationaryBudget
    · have hstreak : (stillFor s.rule k).streak + 1 ≤ (stillFor s.rule k).stationaryBudget := hle
      rw [if_neg Bool.false_ne_true, if_pos hstreak]
      exact ⟨⟨hsetup, _, hnext.congr rfl, h₂.congr rfl⟩, rfl, hlt, hle⟩
    · have hstreak : ¬ (stillFor s.rule k).streak + 1 ≤ (stillFor s.rule k).stationaryBudget := hle
      rw [if_neg Bool.false_ne_true, if_neg hstreak]
      refine ⟨?_, fun _ => by omega⟩
      rw [outcomeAfter, if_pos hlt]
      rfl
  · have hcheck : (stillFor s.rule k).checkMaxIterations k =
        (stillFor s.rule k).mark .maxIterations :=
      StoppingRule.checkMaxIterations_of_le (not_lt.mp hlt)
    rw [hcheck]
    refine ⟨fun _ => ?_, fun hnot => absurd rfl hnot⟩
    refine ⟨?_, fun h => absurd h hlt⟩
    rw [outcomeAfter, if_neg hlt]
    rfl

theorem leads_generations_idles (idles : Idles P)
    (hstill : ∀ ε : α, ¬ ε ≤ Scalar.abs (Scalar.infinity - Scalar.infinity))
    (tracks : P.objective.Tracks origin trail) (governs : Governs P s Trial) (more : Nat)
    (hlives : Lives P trail Trial s box state s₁) (hrule : s₁.rule = stillFor s.rule k)
    (hk : k ≤ s.rule.stationaryBudget) (hmore : k + more = s.rule.maxIterations) :
    Leads (generations P box (more + 1) k state) s₁
      (fun _ s' => s'.rule.outcome =
        outcomeAfter s.rule.maxIterations s.rule.stationaryBudget)
      (fun _ _ => True) := by
  have hbudget := s.rule.stationaryBudget_le
  induction more generalizing k state s₁ with
  | zero =>
      rw [generations]
      refine (leads_pass_idles idles hstill tracks governs hlives hrule).bind ?_
      rintro ⟨next, goes⟩ s' hnext
      cases goes with
      | false =>
          obtain rfl : k = s.rule.stationaryBudget := by omega
          exact hnext.1
      | true =>
          obtain ⟨-, -, hlt, -⟩ := hnext
          omega
  | succ more ih =>
      rw [generations]
      refine (leads_pass_idles idles hstill tracks governs hlives hrule).bind ?_
      rintro ⟨next, goes⟩ s' hnext
      cases goes with
      | false =>
          obtain ⟨houtcome, hended⟩ := hnext
          obtain rfl : k = s.rule.stationaryBudget := by
            have := hended (by omega)
            omega
          exact houtcome
      | true =>
          obtain ⟨hlives', hrule', -, hlt⟩ := hnext
          exact ih hlives' hrule' hlt (by omega)

theorem leads_minimize_idles (idles : Idles P)
    (hstill : ∀ ε : α, ¬ ε ≤ Scalar.abs (Scalar.infinity - Scalar.infinity))
    (s : Session σ (Evolution ρ α) α) :
    Leads (minimize P) s
      (fun o _ => o = outcomeAfter s.rule.maxIterations s.rule.stationaryBudget)
      (fun _ _ => True) := by
  have governs := governs_length P s
  have tracks := P.objective.tracks_true s.progress.oracle
  unfold minimize
  rw [leads_bind]
  refine ((leads_start_lives tracks governs).and (leads_start_rule s)).mono ?_
    fun _ _ _ => trivial
  rintro ⟨box, first⟩ s₁ ⟨hlives, hrule⟩
  rw [leads_bind, leads_get, leads_bind, hrule]
  refine (leads_generations_idles idles hstill tracks governs _ hlives hrule (Nat.zero_le _)
    (Nat.zero_add _)).imp ?_
  intro state s₂ houtcome
  simp only [leads_bind, leads_settle, leads_remember, leads_outcome]
  exact houtcome

end Idle

/-! ## Doubles -/

open Double

theorem value_infinity : Double.value Scalar.infinity = ⊤ := rfl

theorem not_infinity_le {a : Float} (h : Scalar.isFinite a = true) :
    ¬ Scalar.infinity ≤ a := by
  intro hle
  obtain ⟨-, htop, -⟩ := Double.isFinite_iff.mp h
  have hvalue := (Double.le_iff.mp hle).2.2
  rw [value_infinity] at hvalue
  exact htop (top_le_iff.mp hvalue)

theorem not_le_abs_infinity_sub (ε : Float) :
    ¬ ε ≤ Scalar.abs (Scalar.infinity - Scalar.infinity) :=
  fun hle => (Double.isDefined_of_le hle).2 rfl

theorem isFinite_penalized_iff {answer : Checked Float Float} :
    Scalar.isFinite (penalized answer) = true ↔
      ∃ w, answer = .ok w ∧ Scalar.isFinite w = true := by
  have hinfinite : ¬ Scalar.isFinite (Scalar.infinity : Float) = true := fun h =>
    not_infinity_le h (by decide +kernel)
  cases answer with
  | error e => simp [penalized, hinfinite]
  | ok w =>
      by_cases hw : Scalar.isFinite w = true
      · simp [penalized, hw]
      · simp [penalized, hw, hinfinite]

theorem penalized_of_not_finite {answer : Checked Float Float}
    (h : Scalar.isFinite (penalized answer) = false) : penalized answer = Scalar.infinity := by
  cases answer with
  | error e => rfl
  | ok w =>
      refine if_neg fun hw => ?_
      rw [isFinite_penalized_iff.mpr ⟨w, rfl, hw⟩] at h
      contradiction

variable {ρ σ : Type} [RandomSource ρ] {P : Problem σ Float} {log : σ → List (Vec Float)}
  {cost : Vec Float → Checked Float Float} {s s' : Session σ (Evolution ρ Float) Float}
  {o : Outcome}

/-- For a cost that depends on the point alone and may fail or be infinite anywhere: the value
that a run reports is finite if and only if one of its evaluations had a finite cost, and
infinity otherwise.  Where no cost is finite at all the run is nevertheless taken to have
converged, unless its stationary budget is as large as the whole one. -/
theorem minimize_value_isFinite (logs : P.objective.Logs log)
    (hcost : ∀ x o, (P.objective.value x o).1 = cost x) (hrun : minimize P s = (.ok o, s')) :
    (∃ v requests, s'.progress.value = some v ∧
      log s'.progress.oracle = requests ++ log s.progress.oracle ∧
      (Scalar.isFinite v = true ↔
        ∃ x ∈ requests, ∃ w, cost x = .ok w ∧ Scalar.isFinite w = true) ∧
      (Scalar.isFinite v = false → v = Scalar.infinity)) ∧
    ((∀ x w, cost x = .ok w → Scalar.isFinite w = false) →
      o = if s.rule.stationaryBudget < s.rule.maxIterations then .stationaryValue
        else .maxIterations) := by
  constructor
  · obtain ⟨_, _, _, state, _, seen, -, -, hsettles, hranks⟩ :=
      minimize_ranks (by decide +kernel) (logs.tracks _) hrun
    have hcosts {c : Candidate Float} (hc : c ∈ seen) : c.cost = penalized (cost c.values) :=
      hranks.evaluates.cost_eq_penalized hcost hc
    have hbest := hcosts hranks.breeds.mem_best
    refine ⟨state.best.cost, seen.map (·.values), hsettles.value_eq,
      hsettles.oracle_eq ▸ hranks.evaluates.requests, ?_, fun hinfinite => ?_⟩
    · constructor
      · intro hfinite
        rw [hbest] at hfinite
        exact ⟨_, List.mem_map_of_mem hranks.breeds.mem_best, isFinite_penalized_iff.mp hfinite⟩
      · rintro ⟨x, hx, hanswer⟩
        obtain ⟨c, hc, rfl⟩ := List.mem_map.mp hx
        have hfinite := isFinite_penalized_iff.mpr hanswer
        by_contra hinfinite
        rw [Bool.not_eq_true, hbest] at hinfinite
        have hle := hranks.best_le c hc
        rw [hbest, hcosts hc, penalized_of_not_finite hinfinite] at hle
        exact not_infinity_le hfinite hle
    · rw [hbest] at hinfinite ⊢
      exact penalized_of_not_finite hinfinite
  · intro hnever
    have idles : Idles P := by
      intro x o
      rw [hcost]
      refine penalized_of_not_finite (eq_false_of_ne_true fun hfinite => ?_)
      obtain ⟨w, hw, hfinite⟩ := isFinite_penalized_iff.mp hfinite
      rw [hnever x w hw] at hfinite
      contradiction
    exact (leads_minimize_idles idles not_le_abs_infinity_sub s).of_ok hrun

/-! ## Runs where the cost fails -/

def positiveOnly : Cost Float where
  value x := if 0 < x.getD 0 0 then .ok (x.getD 0 0) else .error "not positive"
  values := none
  gradient := none
  jacobian := none
  step := Objective.usualStep

def onePositive (low high : Float) : Problem (List (Evaluation Float)) Float :=
  ⟨positiveOnly.objective, (Constraint.boundary low high).region⟩

def startingAt (x : Float) :
    Session (List (Evaluation Float)) (Evolution Generator Float) Float where
  progress := .start [] [x]
  rule := ⟨3, 2, 1e-8, 1e-8, 1e-8, .running, 0, Nat.one_lt_two, StoppingRule.two_le_three⟩
  memory := { settings := { Settings.usual with members := 2 }, source := .counter 0 }

theorem minimize_value_isFinite_positiveOnly :
    ∃ o s' v, minimize (onePositive (-1) 1) (startingAt 0.5) = (.ok o, s') ∧
      s'.progress.value = some v ∧ Scalar.isFinite v = true := by
  have hcost (x : Vec Float) (o : List (Evaluation Float)) :
      ((onePositive (-1) 1).objective.value x o).1 = Cost.answer positiveOnly.value x := rfl
  have houtcome : (minimize (onePositive (-1) 1) (startingAt 0.5)).1.toOption.isSome = true := by
    decide +kernel
  have hasked : ((minimize (onePositive (-1) 1) (startingAt 0.5)).2.progress.oracle.map
      Cost.point).any
      (fun x => decide (0 < x.getD 0 0) && Scalar.isFinite (x.getD 0 0)) = true := by
    decide +kernel
  rcases hrun : minimize (onePositive (-1) 1) (startingAt 0.5) with ⟨answer, s'⟩
  rw [hrun] at houtcome hasked
  cases answer with
  | error e => cases houtcome
  | ok o =>
      obtain ⟨⟨v, requests, hvalue, hlog, hfinite, -⟩, -⟩ :=
        minimize_value_isFinite (Cost.objective_logs positiveOnly) hcost hrun
      rw [startingAt, Progress.start, List.map_nil, List.append_nil] at hlog
      obtain ⟨x, hx, hanswer⟩ := List.any_eq_true.mp hasked
      obtain ⟨hpositive, hdefined⟩ := Bool.and_eq_true_iff.mp hanswer
      have hvalueAt : positiveOnly.value x = .ok (x.getD 0 0) :=
        if_pos (of_decide_eq_true hpositive)
      refine ⟨o, s', v, rfl, hvalue, hfinite.mpr ⟨x, hlog ▸ hx, _, ?_, hdefined⟩⟩
      rw [Cost.answer, hvalueAt]
      rfl

/-- A run at negative numbers, where every cost fails, has converged to an infinite value. -/
theorem minimize_converges_to_infinity :
    ∃ o s' v, minimize (onePositive (-2) (-1)) (startingAt (-1.5)) = (.ok o, s') ∧
      o.succeeded = true ∧ s'.progress.value = some v ∧ Scalar.isFinite v = false := by
  have hrun : (minimize (onePositive (-2) (-1)) (startingAt (-1.5))).1.toOption.any
      Outcome.succeeded = true ∧
      (minimize (onePositive (-2) (-1)) (startingAt (-1.5))).2.progress.value.any
        (fun v => !Scalar.isFinite v) = true := by
    decide +kernel
  rcases hanswer : minimize (onePositive (-2) (-1)) (startingAt (-1.5)) with ⟨answer, s'⟩
  rw [hanswer] at hrun
  cases answer with
  | error e => cases hrun.1
  | ok o =>
      obtain ⟨v, hv, hinfinite⟩ := (Option.any_eq_true _ _).mp hrun.2
      exact ⟨o, s', v, rfl, hrun.1, hv, by simpa using hinfinite⟩

end Minima.Evolution
