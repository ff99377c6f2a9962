import Minima.Proofs.Double
import Minima.Proofs.LineSearch.Trials

/-!
# Successes and the acceptance rule

A search compares the change of the value with what the slope promises, and gives up
a trial for which a comparison says that the rule is broken.  A trial that no comparison
speaks against is a success.  With defined numbers it obeys the rule; but no comparison
speaks against an undefined change or an undefined promise either.
-/

namespace Minima.LineSearch

variable {σ α : Type} [Scalar α]

/-- The rule of the search: the change of the value against what the slope promises. -/
def Obeys : LineSearch α → (v slope : α) → Trial α → Prop
  | backtracking b, v, slope, t => t.value - v ≤ -b.alpha * t.step * slope
  | bracketing b, v, slope, t =>
      -b.beta * t.step * slope ≤ t.value - v ∧ t.value - v ≤ -b.alpha * t.step * slope

/-- None of the numbers that the rule compares is undefined. -/
def Comparable : LineSearch α → (v slope : α) → Trial α → Prop
  | backtracking b, v, slope, t =>
      Scalar.isUndefined (t.value - v) = false ∧
        Scalar.isUndefined (-b.alpha * t.step * slope) = false
  | bracketing b, v, slope, t =>
      Scalar.isUndefined (t.value - v) = false ∧
        Scalar.isUndefined (-b.beta * t.step * slope) = false ∧
        Scalar.isUndefined (-b.alpha * t.step * slope) = false

instance (search : LineSearch α) (v slope : α) (t : Trial α) :
    Decidable (search.Obeys v slope t) :=
  match search with
  | backtracking _ => inferInstanceAs (Decidable (_ ≤ _))
  | bracketing _ => inferInstanceAs (Decidable (_ ∧ _))

theorem isUndefined_eq_false_iff {a : α} : Scalar.isUndefined a = false ↔ a ≤ a := by
  rw [Scalar.isUndefined, Bool.not_eq_false', decide_eq_true_iff]

variable [OrderedScalar α]

theorem le_iff_of_not_lt {a b : α} (h : ¬ a < b) :
    b ≤ a ↔ Scalar.isUndefined b = false ∧ Scalar.isUndefined a = false := by
  rw [isUndefined_eq_false_iff, isUndefined_eq_false_iff]
  constructor
  · intro hle
    exact ⟨OrderedScalar.le_refl_left hle, OrderedScalar.le_refl_right hle⟩
  · rintro ⟨hb, ha⟩
    exact OrderedScalar.le_of_not_lt ha hb h

theorem obeys_iff_of_accepts {search : LineSearch α} {v slope : α} {t : Trial α}
    (h : search.Accepts v slope t) : search.Obeys v slope t ↔ search.Comparable v slope t := by
  cases search with
  | backtracking b => exact le_iff_of_not_lt (of_decide_eq_false h)
  | bracketing b =>
      have hshort := le_iff_of_not_lt (of_decide_eq_false h.1)
      have hlong := le_iff_of_not_lt (of_decide_eq_false h.2)
      rw [Obeys, Comparable, hshort, hlong]
      tauto

/-- For any objective: a search that reports a success has found a feasible point, reached from
the current one along the direction with the reported step.  With the value that the search
started from, the reported value obeys the rule if and only if the numbers that the rule
compares are defined. -/
theorem search_success_obeys_iff {search : LineSearch Float} {P : Problem σ Float} {budget : Nat}
    {direction : Vec Float} {step : Float} {p p' : Progress σ Float} {r : SearchResult Float}
    (hrun : search.search P budget direction step p = (.ok r, p'))
    (hsucceeded : r.succeeded = true) :
    P.region.contains r.x = true ∧ r.x = Region.along p.point direction r.step ∧
      ∃ v p₁, origin P direction p = (.ok (v, r.slope), p₁) ∧
        (search.Obeys v r.slope r.trial ↔ search.Comparable v r.slope r.trial) := by
  have h := (leads_search_concludes search P budget direction step p).of_ok hrun
  obtain ⟨_, hmove⟩ := h.allowed
  obtain ⟨v, p₁, horigin, haccepts⟩ := h.accepted
  exact ⟨Region.contains_of_move hmove, Region.along_of_move hmove, v, p₁, horigin,
    obeys_iff_of_accepts (haccepts hsucceeded)⟩

/-! ## A parabola and a square root -/

def squareRoot : Cost Float where
  value x := .ok (Float.sqrt (x.getD 0 0))
  values := none
  gradient := some fun x => .ok [0.5 / Float.sqrt (x.getD 0 0)]
  jacobian := none
  step := Objective.usualStep

def onLine (cost : Cost Float) : Problem (List (Evaluation Float)) Float :=
  ⟨cost.objective, Constraint.none.region⟩

def searchBack (search : LineSearch Float) (cost : Cost Float) :
    Checked Float (SearchResult Float) × Progress (List (Evaluation Float)) Float :=
  search.search (onLine cost) 10 [-2] 1 (.start [] [1])

def originBack (cost : Cost Float) :
    Checked Float (Float × Float) × Progress (List (Evaluation Float)) Float :=
  origin (onLine cost) [-2] (.start [] [1])

theorem search_success_obeys_iff_parabola :
    ∃ r p', searchBack (.backtracking .usual) Descent.parabola = (.ok r, p') ∧
      r.succeeded = true ∧ r.x = Region.along [1] [-2] r.step ∧
      ∃ v p₁, originBack Descent.parabola = (.ok (v, r.slope), p₁) ∧
        (backtracking .usual).Comparable v r.slope r.trial ∧
        (backtracking .usual).Obeys v r.slope r.trial := by
  have heval : (searchBack (.backtracking .usual) Descent.parabola).1.toOption.any
      (fun r => r.succeeded && (originBack Descent.parabola).1.toOption.all
        fun o => decide ((backtracking .usual).Obeys o.1 r.slope r.trial)) = true := by
    decide +kernel
  rcases hrun : searchBack (.backtracking .usual) Descent.parabola with ⟨answer, p'⟩
  rw [hrun] at heval
  cases answer with
  | error e => cases heval
  | ok r =>
      obtain ⟨hsucceeded, hobeys⟩ := Bool.and_eq_true_iff.mp heval
      obtain ⟨-, hx, v, p₁, horigin, hiff⟩ := search_success_obeys_iff hrun hsucceeded
      rw [originBack, horigin] at hobeys
      have hobeys := of_decide_eq_true hobeys
      exact ⟨r, p', rfl, hsucceeded, hx, v, p₁, horigin, hiff.mp hobeys, hobeys⟩

def Disobeys (search : LineSearch Float) (cost : Cost Float) : Prop :=
  ∃ r p' v slope p₁, searchBack search cost = (.ok r, p') ∧ r.succeeded = true ∧
    originBack cost = (.ok (v, slope), p₁) ∧ ¬ search.Obeys v r.slope r.trial

theorem disobeys_of_eval {search : LineSearch Float} {cost : Cost Float}
    (heval : (searchBack search cost).1.toOption.any (fun r => r.succeeded &&
      (originBack cost).1.toOption.any fun o => !decide (search.Obeys o.1 r.slope r.trial)) =
        true) :
    Disobeys search cost := by
  unfold Disobeys
  rcases hsearch : searchBack search cost with ⟨answer, p'⟩
  rcases horigin : originBack cost with ⟨start, p₁⟩
  rw [hsearch, horigin] at heval
  cases answer with
  | error e => cases heval
  | ok r =>
      obtain ⟨hsucceeded, hrule⟩ := Bool.and_eq_true_iff.mp heval
      cases start with
      | error e => cases hrule
      | ok o =>
          exact ⟨r, p', o.1, o.2, p₁, rfl, hsucceeded, rfl,
            of_decide_eq_false ((Bool.not_eq_true' _).mp hrule)⟩

/-- The first trial is at minus one, where the root is undefined, and both searches accept it. -/
theorem search_accepts_undefined :
    Disobeys (.backtracking .usual) squareRoot ∧ Disobeys (.bracketing .usual) squareRoot :=
  ⟨disobeys_of_eval (by decide +kernel), disobeys_of_eval (by decide +kernel)⟩

end Minima.LineSearch
