import Minima.Double
import Minima.Fit
import Minima.Proofs.Method.Stored
import Minima.Proofs.Objective.Differences
import Minima.Random.Generator
import Minima.Region.Constraint

/-!
# Fits

A run of a method that ends with an outcome has stored a value, so that nothing can fail between
the outcome and the results of a fit: they are replaced together or not at all.
-/

namespace Minima

variable {ρ σ α : Type}

/-! ## Models -/

theorem checked_bind_eq_ok {β γ : Type} {first : Checked α β} {next : β → Checked α γ} {c : γ}
    (h : first >>= next = .ok c) : ∃ b, first = .ok b ∧ next b = .ok c := by
  cases first with
  | ok b => exact ⟨b, rfl, h⟩
  | error e => cases h

namespace Model

/-- Target and fit are functions of the parameters, with the Jacobian or without it. -/
structure Predicts (m : Model σ α) (predict : Vec α → Checked α (Vec α × Vec α))
    (linearise : Vec α → Checked α (Vec α × Vec α × DenseMatrix α)) : Prop where
  targetAndFit (x : Vec α) : Settled (m.targetAndFit x) (predict x)
  targetFitAndJacobian (x : Vec α) : Settled (m.targetFitAndJacobian x) (linearise x)
  agree {x target fit : Vec α} {jacobian : DenseMatrix α} :
    linearise x = .ok (target, fit, jacobian) → predict x = .ok (target, fit)

variable [Scalar α] {m : Model σ α} {predict : Vec α → Checked α (Vec α × Vec α)}
  {linearise : Vec α → Checked α (Vec α × Vec α × DenseMatrix α)} {x : Vec α} {v : α} {g : Vec α}

def checkedDifference (target fit : Vec α) : Checked α (Vec α) := do
  requireSame target.length fit.length
  return Vec.sub target fit

def differenceOf (predict : Vec α → Checked α (Vec α × Vec α)) (x : Vec α) :
    Checked α (Vec α) := do
  let (target, fit) ← predict x
  checkedDifference target fit

def costOf (predict : Vec α → Checked α (Vec α × Vec α)) (x : Vec α) : Checked α α := do
  return Vec.normSq (← differenceOf predict x)

def costAndGradientOf (linearise : Vec α → Checked α (Vec α × Vec α × DenseMatrix α))
    (x : Vec α) : Checked α (α × Vec α) := do
  let (target, fit, jacobian) ← linearise x
  let d ← checkedDifference target fit
  requireSame jacobian.rows d.length
  return (Vec.normSq d, Vec.scale (-2.0) (jacobian.transposeMulVec d))

theorem checkedDifference_eq_ok {target fit d : Vec α} (h : checkedDifference target fit = .ok d) :
    d = Vec.sub target fit := by
  obtain ⟨-, -, hd⟩ := checked_bind_eq_ok h
  exact (Except.ok.inj hd).symm

theorem costOf_eq_ok (h : costOf predict x = .ok v) :
    ∃ target fit, predict x = .ok (target, fit) ∧ v = Vec.normSq (Vec.sub target fit) := by
  obtain ⟨d, hd, hv⟩ := checked_bind_eq_ok h
  obtain ⟨⟨target, fit⟩, hpredict, hd⟩ := checked_bind_eq_ok hd
  refine ⟨target, fit, hpredict, ?_⟩
  rw [← checkedDifference_eq_ok hd]
  exact (Except.ok.inj hv).symm

theorem costAndGradientOf_eq_ok (h : costAndGradientOf linearise x = .ok (v, g)) :
    ∃ target fit jacobian d, linearise x = .ok (target, fit, jacobian) ∧
      checkedDifference target fit = .ok d ∧ v = Vec.normSq d := by
  obtain ⟨⟨target, fit, jacobian⟩, hlinearise, h⟩ := checked_bind_eq_ok h
  obtain ⟨d, hd, h⟩ := checked_bind_eq_ok h
  obtain ⟨-, -, hvg⟩ := checked_bind_eq_ok h
  exact ⟨target, fit, jacobian, d, hlinearise, hd, (congrArg Prod.fst (Except.ok.inj hvg)).symm⟩

theorem settled_difference (target fit : Vec α) :
    Settled (difference target fit : Eval σ α (Vec α)) (checkedDifference target fit) :=
  (settled_attempt _).bind fun _ => settled_pure _

theorem Predicts.settled_valueAndGradient (h : m.Predicts predict linearise) (x : Vec α) :
    Settled (m.valueAndGradient x) (costAndGradientOf linearise x) :=
  (h.targetFitAndJacobian x).bind fun (target, fit, _) =>
    (settled_difference target fit).bind fun _ =>
      (settled_attempt _).bind fun _ => settled_pure _

theorem Predicts.evaluates (h : m.Predicts predict linearise) :
    m.objective.Evaluates (costOf predict)
      fun x => do return (← costAndGradientOf linearise x).2 where
  value x :=
    ((h.targetAndFit x).bind fun (target, fit) => settled_difference target fit).bind
      fun _ => settled_pure _
  gradient x := (h.settled_valueAndGradient x).bind fun _ => settled_pure _
  valueAndGradient {x o v g} hanswer := by
    have hboth := (h.settled_valueAndGradient x o).symm.trans hanswer
    obtain ⟨target, fit, jacobian, d, hlinearise, hd, rfl⟩ := costAndGradientOf_eq_ok hboth
    refine ⟨?_, by rw [hboth]; rfl⟩
    have hdifference : differenceOf predict x = .ok d := by
      rw [differenceOf, h.agree hlinearise]
      exact hd
    rw [costOf, hdifference]
    rfl

/-! ## Models of given functions -/

omit [Scalar α] in
def givenAnswer {β : Type} (b : Except String β) : Checked α β :=
  b.mapError fun reason => .error (.costFunction reason)

omit [Scalar α] in
def predictOf (target : Vec α) (fit : Vec α → Except String (Vec α)) (x : Vec α) :
    Checked α (Vec α × Vec α) := do
  return (target, ← givenAnswer (fit x))

def lineariseOf (target : Vec α) (fit : Vec α → Except String (Vec α))
    (jacobian : Vec α → Except String (List (Vec α))) (x : Vec α) :
    Checked α (Vec α × Vec α × DenseMatrix α) := do
  let predicted ← givenAnswer (fit x)
  let rows ← givenAnswer (jacobian x)
  if rows.all (·.length == x.length) then
    return (target, predicted, DenseMatrix.ofRows x.length rows)
  else throw .sizeMismatch

theorem ofFunctions_predicts (size : Nat) (target : Vec α) (fit : Vec α → Except String (Vec α))
    (jacobian : Vec α → Except String (List (Vec α))) :
    (ofFunctions size target fit jacobian : Model σ α).Predicts (predictOf target fit)
      (lineariseOf target fit jacobian) where
  targetAndFit x := (settled_attempt _).bind fun _ => settled_pure _
  targetFitAndJacobian x := by
    refine (settled_attempt _).bind fun predicted => (settled_attempt _).bind fun rows => ?_
    split
    · exact settled_pure _
    · exact fun _ => rfl
  agree {x _ _ _} h := by
    obtain ⟨predicted, hpredicted, h⟩ := checked_bind_eq_ok h
    obtain ⟨rows, -, h⟩ := checked_bind_eq_ok h
    split at h
    · cases h
      rw [predictOf, hpredicted]
      rfl
    · cases h

end Model

/-! ## Runs of a fit -/

namespace Fit

structure Kept (α : Type) where
  results : Vec α
  residualNorm : α
  evaluations : Nat
  exit : Outcome

def kept (f : Fit ρ α) : Kept α := ⟨f.results, f.residualNorm, f.evaluations, f.exit⟩

variable [Scalar α]

def Kept.initial : Kept α := ⟨[], 0, 0, .running⟩

variable [RandomSource ρ] {f f' : Fit ρ α} {m : Model σ α} {o o' : σ} {past : List (Kept α)}

def optimize (f : Fit ρ α) (m : Model σ α) (o : σ) (rule : StoppingRule α) :
    Checked α Outcome × Session σ (Method ρ α) α :=
  Method.minimize ⟨m.objective, f.region⟩ ⟨.start o f.initial, rule, f.method⟩

def finished (f : Fit ρ α) (exit : Outcome) (value : α) (s : Session σ (Method ρ α) α) :
    Fit ρ α :=
  { f with
    method := s.memory
    results := s.progress.point
    residualNorm := value
    evaluations := s.progress.valueCount
    exit }

/-- A fit fails and keeps what it kept, or it keeps what the method has left. -/
theorem perform_cases (f : Fit ρ α) (m : Model σ α) (o : σ) :
    (∃ e f' o', f.perform m o = (.error e, f', o') ∧ f'.kept = f.kept) ∨
      ∃ rule exit v s, f.rule = .ok rule ∧ f.optimize m o rule = (.ok exit, s) ∧
        s.progress.value = some v ∧
        f.perform m o = (.ok s.progress.point, f.finished exit v s, s.progress.oracle) := by
  unfold perform
  split
  · exact .inl ⟨_, _, _, rfl, rfl⟩
  cases hrule : f.rule with
  | error e => exact .inl ⟨_, _, _, rfl, rfl⟩
  | ok rule =>
      dsimp only
      rcases hrun : Method.minimize ⟨m.objective, f.region⟩ ⟨.start o f.initial, rule, f.method⟩
        with ⟨answer, s⟩
      cases answer with
      | error e => exact .inl ⟨_, _, _, rfl, rfl⟩
      | ok exit =>
          -- The method has stored a value, so the objective is not asked for it.
          obtain ⟨-, htells⟩ := (Method.leads_minimize_outcome _).of_ok hrun
          obtain ⟨v, hv⟩ := htells.stored
          simp only [hv]
          exact .inr ⟨rule, exit, v, s, rfl, hrun, hv, rfl⟩

theorem kept_of_error {e : Failure α} (h : f.perform m o = (.error e, f', o')) :
    f'.kept = f.kept := by
  rcases perform_cases f m o with
    ⟨e', f'', o'', hfailed, hkept⟩ | ⟨rule, exit, v, s, -, -, -, hok⟩
  · rw [hfailed] at h
    cases h
    exact hkept
  · rw [hok] at h
    cases h

theorem finished_of_ok {x : Vec α} (h : f.perform m o = (.ok x, f', o')) :
    ∃ rule exit v s, f.rule = .ok rule ∧ f.optimize m o rule = (.ok exit, s) ∧
      s.progress.value = some v ∧ s.progress.point = x ∧ f' = f.finished exit v s := by
  rcases perform_cases f m o with
    ⟨e', f'', o'', hfailed, -⟩ | ⟨rule, exit, v, s, hrule, hrun, hv, hok⟩
  · rw [hfailed] at h
    cases h
  · rw [hok] at h
    cases h
    exact ⟨rule, exit, v, s, hrule, hrun, hv, rfl, rfl⟩

theorem optimize_measured {rule : StoppingRule α} {exit : Outcome} {v : α}
    {s : Session σ (Method ρ α) α} {predict : Vec α → Checked α (Vec α × Vec α)}
    {linearise : Vec α → Checked α (Vec α × Vec α × DenseMatrix α)}
    (hcost : f.method.StoresCost) (predicts : m.Predicts predict linearise)
    (hrun : f.optimize m o rule = (.ok exit, s)) (hv : s.progress.value = some v) :
    ∃ target fit, predict s.progress.point = .ok (target, fit) ∧
      v = Vec.normSq (Vec.sub target fit) := by
  obtain ⟨-, htells⟩ := (Method.leads_minimize_outcome _).of_ok hrun
  obtain ⟨w, hw, hmeasured⟩ := htells.measured predicts.evaluates hcost
  obtain rfl : w = v := Option.some.inj (hw.symm.trans hv)
  exact Model.costOf_eq_ok hmeasured

/-- The fits that come of new ones by runs and by starts at other points, and what those of their
runs that succeeded have kept, the last one first. -/
inductive History : Fit ρ α → List (Kept α) → Prop
  | new (region : Region α) (accuracy : α) (maxIterations : Nat) (method : Method ρ α) :
      History (new region accuracy maxIterations method) []
  | startAt {f : Fit ρ α} {past : List (Kept α)} (x : Vec α) :
      History f past → History { f with initial := x } past
  | failed {σ : Type} {m : Model σ α} {f f' : Fit ρ α} {past : List (Kept α)} {o o' : σ}
      {e : Failure α} : History f past → f.perform m o = (.error e, f', o') → History f' past
  | succeeded {σ : Type} {m : Model σ α} {f f' : Fit ρ α} {past : List (Kept α)} {o o' : σ}
      {x : Vec α} : History f past → f.perform m o = (.ok x, f', o') → History f' (f'.kept :: past)

theorem History.kept_eq (h : History f past) : f.kept = past.headD .initial := by
  induction h with
  | new => rfl
  | startAt _ _ ih => exact ih
  | failed _ hfailed ih => exact (kept_of_error hfailed).trans ih
  | succeeded => rfl

/-- Whatever came before: a run that fails leaves what the last one that succeeded has kept, or
what a new fit keeps.  A run that succeeds keeps the point and the outcome of the method, and with
a descent method, the simplex or the least squares solver the squared length of the differences at
this point. -/
theorem perform_keeps_last_success (hpast : History f past) (m : Model σ α) (o : σ) :
    (∀ e f' o', f.perform m o = (.error e, f', o') → f'.kept = past.headD .initial) ∧
      ∀ x f' o', f.perform m o = (.ok x, f', o') → f'.results = x ∧
        (∃ rule s, f.rule = .ok rule ∧ f.optimize m o rule = (.ok f'.exit, s) ∧
          s.progress.point = x) ∧
        (f.method.StoresCost → ∀ predict linearise, m.Predicts predict linearise →
          ∃ target fit, predict x = .ok (target, fit) ∧
            f'.residualNorm = Vec.normSq (Vec.sub target fit)) := by
  refine ⟨fun e f' o' hfailed => (kept_of_error hfailed).trans hpast.kept_eq, fun x f' o' hok => ?_⟩
  obtain ⟨rule, exit, v, s, hrule, hrun, hv, rfl, rfl⟩ := finished_of_ok hok
  refine ⟨rfl, ⟨rule, s, hrule, hrun, rfl⟩, fun hcost predict linearise predicts => ?_⟩
  exact optimize_measured hcost predicts hrun hv

/-! ## A fit of one number -/

def two : Model Unit Float := .ofFunctions 1 [2] (fun x => .ok x) fun _ => .ok [[1]]

def steepestFit : Fit Generator Float :=
  { new Constraint.none.region 1e-8 4 (.descent .steepest) with initial := [0] }

theorem perform_keeps_last_success_two :
    ∃ x f, History f [f.kept] ∧ (steepestFit.perform two ()).1 = .ok x ∧
      f = (steepestFit.perform two ()).2.1 ∧ f.residualNorm = Vec.normSq (Vec.sub [2] x) ∧
      f.residualNorm < 0.1 ∧
      (∃ e, (perform { f with initial := [] } two ()).1 = .error e) ∧
      (perform { f with initial := [] } two ()).2.1.kept = f.kept := by
  have hsucceeds : (steepestFit.perform two ()).1.toOption.isSome = true ∧
      (steepestFit.perform two ()).2.1.residualNorm < 0.1 := by
    decide +kernel
  have hnew : History steepestFit [] := .startAt [0] (.new _ _ _ _)
  rcases hfirst : steepestFit.perform two () with ⟨answer, f, o⟩
  rw [hfirst] at hsucceeds
  cases answer with
  | error e => cases hsucceeds.1
  | ok x =>
      have hpast : History f [f.kept] := hnew.succeeded hfirst
      obtain ⟨-, hok⟩ := perform_keeps_last_success hnew two ()
      obtain ⟨-, -, hnorm⟩ := hok x f o hfirst
      obtain ⟨target, fit, hpredict, hresidual⟩ :=
        hnorm trivial _ _ (Model.ofFunctions_predicts 1 [2] _ _)
      cases hpredict
      obtain ⟨hfailed, -⟩ := perform_keeps_last_success (hpast.startAt []) two ()
      exact ⟨x, f, hpast, rfl, rfl, hresidual, hsucceeds.2, ⟨_, rfl⟩, hfailed _ _ _ rfl⟩

end Fit

end Minima
