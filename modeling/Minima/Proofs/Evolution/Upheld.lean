import Minima.Evolution
import Minima.Proofs.Progress
import Minima.Proofs.Upholds

/-!
# What evaluations and draws uphold

Between two generations a run evaluates candidates and draws from its source.  A property of the
session that outlives both outlives a whole population, and so do the weights and the
probabilities that the session has stored.
-/

namespace Minima.Evolution

variable {ρ σ α β : Type} [Scalar α] {P : Problem σ α}

/-- Evaluations of candidates uphold a property of the session, and draws keep it. -/
structure Endures (P : Problem σ α) (keep : Session σ (Evolution ρ α) α → Prop)
    (stop : Failure α → Session σ (Evolution ρ α) α → Prop) : Prop where
  evaluate (x : Vec α) : Upholds keep stop (evaluate P x)
  source {s : Session σ (Evolution ρ α) α} (source : ρ) :
    keep s → keep { s with memory := { s.memory with source } }

variable {keep : Session σ (Evolution ρ α) α → Prop}
  {stop : Failure α → Session σ (Evolution ρ α) α → Prop}

theorem upholds_evaluate (hprogress : ∀ {s} p, keep s → keep { s with progress := p })
    (hstop : ∀ {s failure}, (∀ cause, failure ≠ .error cause) → keep s → stop failure s)
    (x : Vec α) : Upholds keep stop (evaluate P x) := by
  intro s hs
  unfold Leads evaluate
  rw [work_value_apply]
  have hkeep := hprogress (s := s) { s.progress with
    oracle := (P.objective.value x s.progress.oracle).2
    valueCount := s.progress.valueCount + 1 } hs
  cases (P.objective.value x s.progress.oracle).1 with
  | ok v => exact hkeep
  | error e =>
      cases e with
      | error e => exact hkeep
      | sizeMismatch => exact hstop nofun hkeep
      | refused r => exact hstop nofun hkeep

theorem endures_rule (P : Problem σ α) (c : StoppingRule α) :
    Endures P (fun s : Session σ (Evolution ρ α) α => s.rule = c) (fun _ s => s.rule = c) where
  evaluate := upholds_evaluate (fun _ h => h) fun _ h => h
  source _ h := h

theorem endures_errors (P : Problem σ α) :
    Endures P (fun _ : Session σ (Evolution ρ α) α => True)
      (fun e _ => ∀ cause, e ≠ .error cause) where
  evaluate := upholds_evaluate (fun _ h => h) fun h _ => h
  source _ h := h

theorem endures_adapted (P : Problem σ α) (weights probabilities : Vec α) :
    Endures P (fun s : Session σ (Evolution ρ α) α =>
      s.memory.weights = weights ∧ s.memory.probabilities = probabilities) (fun _ _ => True) where
  evaluate := upholds_evaluate (fun _ h => h) fun _ _ => trivial
  source _ h := h

theorem upholds_draw (endures : Endures P keep stop) (d : StateM ρ β) :
    Upholds keep stop (draw d) :=
  fun s hs => endures.source (d s.memory.source).2 hs

variable [RandomSource ρ]

theorem upholds_randomMembers (endures : Endures P keep stop) (s : Setup α) (count : Nat) :
    Upholds keep stop (randomMembers P s count) := by
  induction count with
  | zero => exact upholds_pure _
  | succ count ih =>
      exact (upholds_draw endures _).bind fun _ => (endures.evaluate _).bind fun _ =>
        ih.bind fun _ => upholds_pure _

theorem upholds_select (endures : Endures P keep stop) (s : Setup α)
    (population : List (Candidate α)) (mutants anchors : List (Vec α)) (masks : List (List Bool)) :
    Upholds keep stop (select P s population mutants anchors masks) := by
  fun_induction (select P s population mutants anchors masks : Run σ (Evolution ρ α) α _) with
  | case1 old population mutant mutants anchor anchors mask masks ih =>
      exact (upholds_draw endures _).bind fun _ => (endures.evaluate _).bind fun _ =>
        ih.bind fun _ => upholds_pure _
  | case2 => exact upholds_pure _

theorem leads_select_adapted (box : Setup α) (population : List (Candidate α))
    (mutants anchors : List (Vec α)) (masks : List (List Bool))
    (s : Session σ (Evolution ρ α) α) :
    Leads (select P box population mutants anchors masks) s
      (fun _ s' => s'.memory.weights = s.memory.weights ∧
        s'.memory.probabilities = s.memory.probabilities) (fun _ _ => True) :=
  upholds_select (endures_adapted P _ _) box population mutants anchors masks s ⟨rfl, rfl⟩

/-- What weights and probabilities have no part in outlives a generation. -/
theorem upholds_nextGeneration (endures : Endures P keep stop)
    (hmemory : ∀ {s} m, keep s → keep { s with memory := m }) (s : Setup α) (state : State α) :
    Upholds keep stop (nextGeneration P s state) :=
  upholds_get.bind fun _ => (upholds_draw endures _).bind fun _ =>
    (upholds_draw endures _).bind fun _ =>
      (upholds_modify fun _ h => hmemory _ h).bind fun _ =>
        (upholds_select endures _ _ _ _ _).bind fun _ => upholds_pure _

end Minima.Evolution
