import Minima.Proofs.Annealing.Outcome
import Minima.Proofs.Descent.Outcome
import Minima.Proofs.Evolution.Outcome
import Minima.Proofs.LeastSquares.Outcome
import Minima.Proofs.Method.Repetition
import Minima.Proofs.Simplex.Outcome

/-!
# Outcomes of the methods

What an outcome tells about the end of a run, for every method.
-/

namespace Minima.Method

variable {ρ σ α : Type} [Scalar α] [RandomSource ρ] {P : Problem σ α}
  {s s' : Session σ (Method ρ α) α} {o : Outcome}

/-- What the outcome of a run from `s` to `s'` tells about its end.  A budget that is spent where
it is checked on the way out decides the outcome, whatever else has been found there. -/
def Tells (P : Problem σ α) (s : Session σ (Method ρ α) α) (o : Outcome)
    (s' : Session σ (Method ρ α) α) : Prop :=
  match s.memory, s'.memory with
  | .descent d, .descent d' => o ≠ .running ∧
      ∃ i r, Descent.Ends P { s with memory := d } i r { s' with memory := d' } ∧
        (o = .unknown ↔ r.succeeded = false) ∧
        (r.succeeded = true → s.rule.maxIterations ≤ i → o = .maxIterations)
  | .simplex m, .simplex m' => o ≠ .running ∧
      ∃ i stops, Simplex.Ends P { s with memory := m } i stops { s' with memory := m' } ∧
        (s.rule.maxIterations ≤ i → stops = true ∧ o = .maxIterations)
  | .annealing a, .annealing a' => o ≠ .running ∧
      ∃ i still, Annealing.Ends P { s with memory := a } i still { s' with memory := a' } ∧
        (still = false → s.rule.maxIterations ≤ i ∧ o = .maxIterations)
  | .evolution e, .evolution e' => o ≠ .running ∧
      ∃ k, Evolution.Ends P { s with memory := e } k { s' with memory := e' } ∧
        (s.rule.maxIterations ≤ k → o = .maxIterations)
  | .leastSquares l, .leastSquares l' =>
      ∃ report, LeastSquaresMethod.Ends P { s with memory := l } report o
          { s' with memory := l' } ∧
        (o = .running → report.termination.code = 6 ∧
          report.evaluations < s.rule.maxIterations) ∧
        (s.rule.maxIterations ≤ report.evaluations → o = .maxIterations)
  | _, _ => False

theorem leads_minimize_outcome (s : Session σ (Method ρ α) α) :
    Leads (minimize P) s (fun o s' => s'.rule.outcome = o ∧ Tells P s o s')
      (fun _ _ => True) := by
  unfold minimize Tells
  rw [leads_bind, leads_get]
  cases s.memory with
  | descent d =>
      refine leads_within.mpr ((Descent.leads_minimize_outcome _).mono ?_ fun _ _ _ => trivial)
      rintro o t ⟨houtcome, i, r, hends, ho⟩
      rw [← houtcome, ho]
      exact ⟨rfl, Descent.outcomeAfter_ne_running _ _ _, i, r, hends,
        Descent.outcomeAfter_eq_unknown_iff, Descent.outcomeAfter_of_le⟩
  | simplex m =>
      refine leads_within.mpr ((Simplex.leads_minimize_outcome _).mono ?_ fun _ _ _ => trivial)
      rintro o t ⟨houtcome, i, stops, hends, ho, hlt⟩
      rw [← houtcome, ho]
      refine ⟨rfl, Simplex.outcomeAfter_ne_running _ _ _, i, stops, hends, fun hle => ?_⟩
      cases stops with
      | true => exact ⟨rfl, if_neg (Nat.not_lt.mpr hle)⟩
      | false => exact absurd (hlt rfl) (Nat.not_lt.mpr hle)
  | annealing a =>
      refine leads_within.mpr ((Annealing.leads_minimize_outcome _).mono ?_ fun _ _ _ => trivial)
      rintro o t ⟨houtcome, i, still, hends, ho, hle⟩
      rw [← houtcome, ho]
      refine ⟨rfl, Annealing.outcomeAfter_ne_running _, i, still, hends, fun hstill => ?_⟩
      exact ⟨hle hstill, by rw [hstill]; rfl⟩
  | evolution e =>
      refine leads_within.mpr ((Evolution.leads_minimize_outcome _).mono ?_ fun _ _ _ => trivial)
      rintro o t ⟨houtcome, k, hends, ho⟩
      rw [← houtcome, ho]
      exact ⟨rfl, Evolution.outcomeAfter_ne_running _ _, k, hends,
        fun hle => if_neg (Nat.not_lt.mpr hle)⟩
  | leastSquares l =>
      refine leads_within.mpr
        ((LeastSquaresMethod.leads_minimize_outcome _).mono ?_ fun _ _ _ => trivial)
      rintro o t ⟨houtcome, report, hends, ho⟩
      refine ⟨houtcome.symm, report, hends, fun hrunning => ?_, fun hle => ?_⟩
      · exact LeastSquaresMethod.code_of_outcomeAfter_eq_running (ho.symm.trans hrunning)
      · rw [ho]
        exact if_neg (Nat.not_lt.mpr hle)

/-- The outcome is the one of the rule.  Only the least squares solver leaves it open, with code
6 and before the budget of evaluations is spent.  A descent ends with `unknown` if and only if its
last search has failed. -/
theorem minimize_outcome (hrun : minimize P s = (.ok o, s')) :
    s'.rule.outcome = o ∧ Tells P s o s' :=
  (leads_minimize_outcome s).of_ok hrun

theorem minimize_outcome_fromHalf :
    ∃ s' d' i r, minimize Descent.parabolaFromHalf unused = (.ok .unknown, s') ∧
      s'.rule.outcome = .unknown ∧
      Descent.Ends Descent.parabolaFromHalf
        { unused with memory := (.quasiNewton : Descent Float) } i r { s' with memory := d' } ∧
      r.succeeded = false := by
  have hanswer : (minimize Descent.parabolaFromHalf unused).1.toOption = some .unknown := by
    decide +kernel
  rcases hrun : minimize Descent.parabolaFromHalf unused with ⟨answer, s'⟩
  rw [hrun] at hanswer
  cases answer with
  | error e => contradiction
  | ok o =>
      obtain rfl := Option.some.inj hanswer
      obtain ⟨houtcome, htells⟩ := minimize_outcome hrun
      unfold Tells at htells
      cases hmemory : s'.memory with
      | descent d' =>
          rw [hmemory] at htells
          obtain ⟨-, i, r, hends, hunknown, -⟩ := htells
          exact ⟨s', d', i, r, rfl, houtcome, hends, hunknown.mp rfl⟩
      | simplex m => simp [unused, hmemory] at htells
      | annealing a => simp [unused, hmemory] at htells
      | evolution e => simp [unused, hmemory] at htells
      | leastSquares l => simp [unused, hmemory] at htells

end Minima.Method
