import Minima.Method
import Minima.Proofs.Annealing.Failures
import Minima.Proofs.Descent.Failures
import Minima.Proofs.Evolution.Failures
import Minima.Proofs.LeastSquares.Failures
import Minima.Proofs.StoppingRule
import Minima.Random.Generator
import Minima.Region.Constraint

/-!
# Failures of the methods

Every method but differential evolution ends with the first evaluation that fails, and fails as
it does.  An infeasible start is noticed before anything is evaluated, by all methods alike, but
a member of a given population only when its turn comes.
-/

namespace Minima

variable {ρ σ α β μ ν : Type}

@[simp]
theorem leads_within {m : μ} {restore : μ → ν} {r : Run σ μ α β} {s : Session σ ν α}
    {post : β → Session σ ν α → Prop} {stop : Failure α → Session σ ν α → Prop} :
    Leads (Run.within m restore r) s post stop ↔
      Leads r ⟨s.progress, s.rule, m⟩
        (fun b t => post b ⟨t.progress, t.rule, restore t.memory⟩)
        (fun e t => stop e ⟨t.progress, t.rule, restore t.memory⟩) := by
  unfold Leads Run.within
  rcases r ⟨s.progress, s.rule, m⟩ with ⟨answer, t⟩
  cases answer with
  | ok b => rfl
  | error e => rfl

theorem accounts_within {keep : σ → Prop} {stop : Failure α → σ → Prop} {m : μ} {restore : μ → ν}
    {r : Run σ μ α β} {s : Session σ ν α} :
    Accounts keep stop (Run.within m restore r) s ↔
      Accounts keep stop r ⟨s.progress, s.rule, m⟩ :=
  leads_within

theorem Accounts.mono {keep : σ → Prop} {stop stop' : Failure α → σ → Prop} {r : Run σ μ α β}
    {s : Session σ μ α} (h : Accounts keep stop r s) (himp : ∀ e o, stop e o → stop' e o) :
    Accounts keep stop' r s :=
  Leads.mono h (fun _ _ h => h) fun e _ h => h.imp (himp e _) id

theorem Parts.entered_sized [Scalar α] {c : Parts σ α} {size : Option Nat}
    (h : c.objective.Sized size) : c.entered.objective.Sized size := by
  rintro m hm x ⟨o, ledger⟩ r hr
  refine h m hm x o r (hr ▸ ?_)
  rcases c with ⟨value, values, gradient, valueAndGradient, jacobian, step⟩
  cases values with
  | some values => rfl
  | none =>
      change (Objective.singleton value x o).1 =
        (Objective.singleton (Minima.entered value) x (o, ledger)).1
      rw [Objective.singleton, Objective.singleton, bind_apply, bind_apply, Minima.entered]
      rcases value x o with ⟨answer, o'⟩
      cases answer with
      | ok v => rfl
      | error e => rfl

def isInfeasibleStart : Except (Failure α) β → Bool
  | .error (.error .infeasibleStart) => true
  | _ => false

theorem eq_of_isInfeasibleStart {answer : Except (Failure α) β}
    (h : isInfeasibleStart answer = true) : answer = .error (.error .infeasibleStart) := by
  unfold isInfeasibleStart at h
  split at h
  · rfl
  · contradiction

namespace Method

variable [Scalar α] [RandomSource ρ]

def given : Method ρ α → List (Vec α)
  | evolution e => e.settings.initial.getD []
  | _ => []

section Reports

variable {P : Problem σ α} {keep : σ → Prop} {stop : Failure α → σ → Prop} {size : Option Nat}
  {s : Session σ (Method ρ α) α}

theorem minimize_accounts (reports : P.objective.Reports keep stop)
    (hsized : P.objective.Sized size) (hs : keep s.progress.oracle)
    (hmethod : ∀ e, s.memory ≠ evolution e) :
    Accounts keep (fun e o => stop e o ∨ (e = .error .userAbort ∧ size = none ∧ keep o))
      (minimize P) s := by
  have hweaken {r : Run σ (Method ρ α) α Outcome} (h : Accounts keep stop r s) :
      Accounts keep (fun e o => stop e o ∨ (e = .error .userAbort ∧ size = none ∧ keep o)) r s :=
    h.mono fun _ _ => .inl
  unfold Accounts minimize
  rw [leads_bind, leads_get]
  cases hmemory : s.memory with
  | evolution e => exact absurd hmemory (hmethod e)
  | descent d =>
      exact hweaken (accounts_within.mpr
        (Descent.minimize_accounts Descent.strategy_failsOwn reports hs))
  | simplex m =>
      exact hweaken (accounts_within.mpr (Simplex.minimize_accounts reports hs))
  | annealing a =>
      exact hweaken (accounts_within.mpr (Annealing.minimize_accounts reports hs))
  | leastSquares l =>
      exact accounts_within.mpr (LeastSquaresMethod.minimize_accounts reports hsized hs)

end Reports

variable {c : Parts σ α} {region : Region α} {s : Session (σ × List (Entry α)) (Method ρ α) α}

theorem minimize_admits (c : Parts σ α) (region : Region α) {e : Evolution ρ α}
    (hmemory : s.memory = evolution e) :
    Leads (minimize ⟨c.entered.objective, region⟩) s (fun _ _ => True)
      (fun failure s' => (∀ cause, failure ≠ .error cause) ∨
        (Evolution.startCheck region e.settings s.progress.point = .error failure ∧
          ∃ t, Evolution.Halts region s.memory.given failure ⟨s.progress, s.rule, e⟩ t ∧
            t.progress = s'.progress)) := by
  unfold minimize
  rw [leads_bind, leads_get, hmemory]
  refine leads_within.mpr (Evolution.minimize_admits.imp_stop fun failure t h => ?_)
  exact h.imp id fun ⟨hcheck, hhalts⟩ => ⟨hcheck, t, hhalts, rfl⟩

/-- For a cost with a fixed number of components, whatever functions it gives and whatever else
happens: in a run of any method but differential evolution the first evaluation that fails is the
last one of all, and the run fails as it did; it is aborted only by an evaluation that says so.
Differential evolution reports no error but those that its checks of the start find without an
evaluation. -/
theorem minimize_first_failure {m : Nat} (hsized : c.objective.Sized (some m))
    (s : Session (σ × List (Entry α)) (Method ρ α) α) :
    ((∀ e, s.memory ≠ evolution e) →
      ∃ made, (minimize ⟨c.entered.objective, region⟩ s).2.progress.oracle.2 =
          made ++ s.progress.oracle.2 ∧
        EndsWith made (minimize ⟨c.entered.objective, region⟩ s).1 ∧
        ((minimize ⟨c.entered.objective, region⟩ s).1 = .error (.error .userAbort) →
          ∃ last rest, made = last :: rest ∧ last.failure = some (.error .userAbort))) ∧
    ∀ e, s.memory = evolution e → ∀ cause,
      (minimize ⟨c.entered.objective, region⟩ s).1 = .error (.error cause) →
        Evolution.startCheck region e.settings s.progress.point = .error (.error cause) := by
  constructor
  · intro hmethod
    have haccounts := minimize_accounts (P := ⟨c.entered.objective, region⟩)
      (c.entered_reports s.progress.oracle.2) (Parts.entered_sized hsized) (answered_refl _) hmethod
    rcases hrun : minimize ⟨c.entered.objective, region⟩ s with ⟨answer, s'⟩
    rw [Accounts, Leads, hrun] at haccounts
    cases answer with
    | ok o =>
        obtain ⟨made, hmade, hanswered⟩ := haccounts
        exact ⟨made, hmade, endsWith_of_answered hanswered _, by simp⟩
    | error e =>
        rcases haccounts with ((⟨hown, made, hmade, hanswered⟩ | ⟨last, made, hmade, hlast, h⟩) |
          ⟨-, hsize, -⟩) | ⟨rfl, hreset⟩
        · refine ⟨made, hmade, endsWith_of_answered hanswered _, ?_⟩
          rintro ⟨⟩
          contradiction
        · refine ⟨last :: made, hmade, endsWith_of_blamed hlast h, ?_⟩
          rintro ⟨⟩
          exact ⟨last, made, rfl, hlast⟩
        · contradiction
        · refine ⟨[], ?_, endsWith_of_answered (by simp) _, by simp⟩
          dsimp only
          rw [hreset]
          rfl
  · intro e hmemory cause hcause
    have hadmits := minimize_admits c region hmemory
    rcases hrun : minimize ⟨c.entered.objective, region⟩ s with ⟨answer, s'⟩
    rw [Leads, hrun] at hadmits
    rw [hrun] at hcause
    cases hcause
    rcases hadmits with hne | ⟨hcheck, -⟩
    · exact absurd rfl (hne cause)
    · exact hcheck

def everywhere : Region Float := ⟨fun _ => true, .ok, .ok⟩

def cliff : Parts Unit Float where
  value x := pure (Vec.dot x x)
  values := some fun x =>
    if x.getD 0 0 < 0.5 then throw (.error (.costFunction "too low")) else pure [x.getD 0 0]
  gradient := none
  valueAndGradient := none
  jacobian := none
  step := Objective.usualStep

def cliffFromOne : Session (Unit × List (Entry Float)) (Method Generator Float) Float where
  progress := .start ((), []) [1]
  rule := ⟨3, 2, 1e-8, 1e-8, 1e-8, .running, 0, Nat.one_lt_two, StoppingRule.two_le_three⟩
  memory := .leastSquares ⟨.classic, .plain⟩

theorem minimize_first_failure_cliff :
    cliff.objective.Sized (some 1) ∧
      ∃ last answered e,
        (minimize ⟨cliff.entered.objective, everywhere⟩ cliffFromOne).2.progress.oracle.2 =
          last :: answered ∧
        answered.length = 3 ∧ last.failure = some e ∧
        (minimize ⟨cliff.entered.objective, everywhere⟩ cliffFromOne).1 = .error e := by
  have hsized : cliff.objective.Sized (some 1) := by
    rintro m ⟨⟩ x o r hr
    change ((if x.getD 0 0 < 0.5 then throw (.error (.costFunction "too low"))
      else pure [x.getD 0 0] : Eval Unit Float (Vec Float)) o).1 = .ok r at hr
    split at hr
    · cases hr
    · cases hr
      rfl
  have hmethod : ∀ e, cliffFromOne.memory ≠ .evolution e := by
    intro e h
    simp [cliffFromOne] at h
  obtain ⟨made, hmade, hends, -⟩ := (minimize_first_failure hsized cliffFromOne).1 hmethod
  have hrun : ((minimize ⟨cliff.entered.objective, everywhere⟩ cliffFromOne).2.progress.oracle.2.map
      fun entry => entry.failure.isSome) = [true, false, false, false] := by
    decide +kernel
  have hempty : cliffFromOne.progress.oracle.2 = [] := rfl
  rw [hempty, List.append_nil] at hmade
  rw [hmade] at hrun ⊢
  obtain ⟨last, answered, rfl, hlast, hanswered⟩ := List.map_eq_cons_iff.mp hrun
  obtain ⟨e, he⟩ := Option.isSome_iff_exists.mp hlast
  refine ⟨hsized, last, answered, e, rfl, ?_, he, (hends [] last answered e rfl he).2⟩
  simpa using congrArg List.length hanswered

/-- A run that fails for an infeasible start leaves the point alone and has evaluated nothing, or
the members of a given population in front of the first that is infeasible, each once.  The only
other cause is an evaluation that fails so itself. -/
theorem minimize_infeasibleStart {s' : Session (σ × List (Entry α)) (Method ρ α) α}
    (hrun : minimize ⟨c.entered.objective, region⟩ s = (.error (.error .infeasibleStart), s')) :
    ∃ made, s'.progress.oracle.2 = made ++ s.progress.oracle.2 ∧
      ((s'.progress.point = s.progress.point ∧
          (made = [] ∨ ∃ front x back, s.memory.given = front ++ x :: back ∧
            region.contains x = false ∧ (∀ y ∈ front, region.contains y = true) ∧
            made.map Entry.point = front.reverse)) ∨
        ∃ last rest, made = last :: rest ∧ last.failure = some (.error .infeasibleStart)) := by
  rcases Classical.em (∃ e, s.memory = evolution e) with ⟨e, hmemory⟩ | hmethod
  · have hadmits := minimize_admits c region hmemory
    rw [Leads, hrun] at hadmits
    rcases hadmits with hne | ⟨-, t, hhalts, hprogress⟩
    · exact absurd rfl (hne .infeasibleStart)
    rw [← hprogress]
    rcases hhalts with ⟨hpoint, horacle⟩ | ⟨front, x, back, hgiven, haway⟩
    · exact ⟨[], by rw [horacle]; rfl, .inl ⟨hpoint, .inl rfl⟩⟩
    · obtain ⟨made, hmade, hpoints⟩ := haway.ledger
      refine ⟨made, hmade, .inl ⟨haway.point_eq, .inr ⟨front, x, back, hgiven, ?_, ?_, hpoints⟩⟩⟩
      · exact Evolution.contains_of_checkMember_infeasible haway.eq_error
      · exact fun y hy => Evolution.contains_of_checkMember (haway.front_eq_ok y hy)
  · have haccounts := minimize_accounts (P := ⟨c.entered.objective, region⟩)
      (c.entered_reports s.progress.oracle.2) (Objective.sized_none _) (answered_refl _)
      fun e he => hmethod ⟨e, he⟩
    rw [Accounts, Leads, hrun] at haccounts
    rcases haccounts with ((⟨hown, -⟩ | ⟨last, made, hmade, hlast, -⟩) | ⟨hne, -⟩) | ⟨-, hreset⟩
    · contradiction
    · exact ⟨last :: made, hmade, .inr ⟨last, made, rfl, hlast⟩⟩
    · cases hne
    · rw [hreset]
      exact ⟨[], rfl, .inl ⟨rfl, .inl rfl⟩⟩

def bowl : Parts Unit Float where
  value x := pure (Vec.dot x x)
  values := none
  gradient := none
  valueAndGradient := none
  jacobian := none
  step := Objective.usualStep

def bowlFromTwo : Problem (Unit × List (Entry Float)) Float :=
  ⟨bowl.entered.objective, (Constraint.boundary (-2) 2).region⟩

def infeasibleSecond : Session (Unit × List (Entry Float)) (Method Generator Float) Float where
  progress := .start ((), []) [0]
  rule := ⟨6, 3, 1e-8, 1e-12, 1e-12, .running, 0, by decide, by decide⟩
  memory := .evolution {
    settings := { Evolution.Settings.usual with initial := some [[0.5], [5]] }
    source := .counter 5 }

theorem run_infeasibleSecond :
    ∃ s', minimize bowlFromTwo infeasibleSecond = (.error (.error .infeasibleStart), s') ∧
      s'.progress.oracle.2.map (·.failure.isSome) = [false] := by
  have hrun : isInfeasibleStart (minimize bowlFromTwo infeasibleSecond).1 = true ∧
      (minimize bowlFromTwo infeasibleSecond).2.progress.oracle.2.map (·.failure.isSome) =
        [false] := by
    decide +kernel
  obtain ⟨hanswer, hledger⟩ := hrun
  exact ⟨_, Prod.ext (eq_of_isInfeasibleStart hanswer) rfl, hledger⟩

theorem minimize_infeasibleStart_second :
    ∃ s' front x back,
      minimize bowlFromTwo infeasibleSecond = (.error (.error .infeasibleStart), s') ∧
      s'.progress.point = [0] ∧ [[0.5], [5]] = front ++ x :: back ∧
      bowlFromTwo.region.contains x = false ∧ front.length = 1 ∧
      s'.progress.oracle.2.map Entry.point = front.reverse := by
  obtain ⟨s', hrun, hledger⟩ := run_infeasibleSecond
  obtain ⟨made, hmade, hcases⟩ := minimize_infeasibleStart hrun
  have hempty : infeasibleSecond.progress.oracle.2 = [] := rfl
  rw [hempty, List.append_nil] at hmade
  rw [hmade] at hledger
  rcases hcases with ⟨hpoint, rfl | ⟨front, x, back, hgiven, hx, -, hpoints⟩⟩ |
    ⟨last, rest, rfl, hlast⟩
  · contradiction
  · refine ⟨s', front, x, back, hrun, hpoint, hgiven, hx, ?_, by rw [hmade, hpoints]⟩
    rw [← List.length_reverse, ← hpoints, List.length_map]
    simpa using congrArg List.length hledger
  · simp [hlast] at hledger

/-- The member in front has been evaluated before the run finds its start infeasible. -/
theorem minimize_evaluates_infeasibleStart :
    ∃ s', minimize bowlFromTwo infeasibleSecond = (.error (.error .infeasibleStart), s') ∧
      infeasibleSecond.progress.oracle.2 = [] ∧ s'.progress.oracle.2 ≠ [] := by
  obtain ⟨s', hrun, hledger⟩ := run_infeasibleSecond
  refine ⟨s', hrun, rfl, ?_⟩
  rintro hnil
  rw [hnil] at hledger
  contradiction

end Method

end Minima
