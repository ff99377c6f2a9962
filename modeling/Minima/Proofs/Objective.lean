import Minima.Objective.Recorded
import Minima.Proofs.Leads

/-!
# Objectives that answer for a point

What such an objective answers depends on the point alone, though its state may
keep a record.  A log of requests is one record among others.  `Problem.Spares`
says that a property of the state outlives all requests but those for components
outside the region, `Problem.Allows` that it outlives every request for a value
or a gradient in the region.
-/

namespace Minima

variable {σ α : Type}

/-- Costs and components are functions of the point, whatever was asked before. -/
structure Objective.Answers (f : Objective σ α) (value : Vec α → Checked α α)
    (values : Vec α → Checked α (Vec α)) : Prop where
  value (x : Vec α) (o : σ) : (f.value x o).1 = value x
  values (x : Vec α) (o : σ) : (f.values x o).1 = values x

/-- Costs and gradients are functions of the point.  Both together, if they are found at all,
are the same as one after the other. -/
structure Objective.Evaluates (f : Objective σ α) (value : Vec α → Checked α α)
    (gradient : Vec α → Checked α (Vec α)) : Prop where
  valueAndGradient {x : Vec α} {o : σ} {v : α} {g : Vec α} :
    (f.valueAndGradient x o).1 = .ok (v, g) → value x = .ok v ∧ gradient x = .ok g
  value (x : Vec α) (o : σ) : (f.value x o).1 = value x
  gradient (x : Vec α) (o : σ) : (f.gradient x o).1 = gradient x

/-- Costs are a function of the point and never undefined, unless the evaluation fails, and
`log` lists the points where they were asked for, the last one first. -/
structure Objective.Costs [Scalar α] (f : Objective σ α) (value : Vec α → α)
    (log : σ → List (Vec α)) : Prop where
  value_eq {x : Vec α} {o : σ} {v : α} : (f.value x o).1 = .ok v → v = value x
  log_eq {x : Vec α} {o : σ} {v : α} : (f.value x o).1 = .ok v → log (f.value x o).2 = x :: log o
  defined (x : Vec α) : value x ≤ value x

/-- `log` lists the points where costs were asked for, the last one first, whatever the
answers were. -/
structure Objective.Logs (f : Objective σ α) (log : σ → List (Vec α)) : Prop where
  value (x : Vec α) (o : σ) : log (f.value x o).2 = x :: log o

/-- `trail` holds of a state and the points where costs have been asked for since `origin`, the
last one first. -/
structure Objective.Tracks (f : Objective σ α) (origin : σ) (trail : σ → List (Vec α) → Prop) :
    Prop where
  origin : trail origin []
  value {o : σ} {requests : List (Vec α)} (x : Vec α) :
    trail o requests → trail (f.value x o).2 (x :: requests)

theorem Objective.Logs.tracks {f : Objective σ α} {log : σ → List (Vec α)} (logs : f.Logs log)
    (origin : σ) : f.Tracks origin fun o requests => log o = requests ++ log origin where
  origin := rfl
  value x h := (logs.value x _).trans (congrArg (x :: ·) h)

theorem Objective.tracks_true (f : Objective σ α) (origin : σ) :
    f.Tracks origin fun _ _ => True :=
  ⟨trivial, fun _ _ => trivial⟩

/-- A property of the state of the objective that survives all evaluations the method is
allowed: components in the region, values and Jacobians anywhere. -/
structure Problem.Spares (P : Problem σ α) (Q : σ → Prop) : Prop where
  value {o : σ} (x : Vec α) : Q o → Q (P.objective.value x o).2
  values {x : Vec α} {o : σ} : P.region.contains x = true → Q o → Q (P.objective.values x o).2
  jacobian {o : σ} (x : Vec α) : Q o → Q (P.objective.jacobian x o).2

/-- A property of the state of the objective that survives requests in the region. -/
structure Problem.Allows (P : Problem σ α) (Q : σ → Prop) : Prop where
  value {x : Vec α} {o : σ} : P.region.contains x = true → Q o → Q (P.objective.value x o).2
  gradient {x : Vec α} {o : σ} : P.region.contains x = true → Q o → Q (P.objective.gradient x o).2
  valueAndGradient {x : Vec α} {o : σ} : P.region.contains x = true → Q o →
    Q (P.objective.valueAndGradient x o).2

theorem Problem.allows_true (P : Problem σ α) : P.Allows (fun _ => True) :=
  ⟨fun _ _ => trivial, fun _ _ => trivial, fun _ _ => trivial⟩

/-! ## A log of requests -/

def unlogged {β : Type} (e : Eval σ α β) : Eval (σ × List (Vec α)) α β := fun (o, log) =>
  let (answer, o) := e o
  (answer, o, log)

def Objective.logged (f : Objective σ α) : Objective (σ × List (Vec α)) α where
  value x := unlogged (f.value x)
  values x := fun (o, log) =>
    let (answer, o) := f.values x o
    (answer, o, x :: log)
  gradient x := unlogged (f.gradient x)
  valueAndGradient x := unlogged (f.valueAndGradient x)
  jacobian x := unlogged (f.jacobian x)
  step := f.step

def Problem.logged (P : Problem σ α) : Problem (σ × List (Vec α)) α :=
  ⟨P.objective.logged, P.region⟩

def Progress.logged (p : Progress σ α) : Progress (σ × List (Vec α)) α :=
  ⟨(p.oracle, []), p.point, p.value, p.gradientNormSq, p.valueCount, p.gradientCount⟩

theorem Objective.logged_answers {f : Objective σ α} {value : Vec α → Checked α α}
    {values : Vec α → Checked α (Vec α)} (answers : f.Answers value values) :
    f.logged.Answers value values where
  value x o := answers.value x o.1
  values x o := answers.values x o.1

theorem Problem.logged_spares (P : Problem σ α) :
    P.logged.Spares (fun o => ∀ x ∈ o.2, P.region.contains x = true) where
  value _ h := h
  values := by
    intro x o hfeasible h y hy
    rcases List.mem_cons.mp hy with rfl | hmem
    · exact hfeasible
    · exact h y hmem
  jacobian _ h := h

def asked {β : Type} (x : Vec α) (e : Eval σ α β) : Eval (σ × List (Vec α)) α β := fun (o, log) =>
  let (answer, o) := e o
  (answer, o, x :: log)

/-- The objective with a log of the points of all requests, the last one first. -/
def Objective.traced (f : Objective σ α) : Objective (σ × List (Vec α)) α where
  value x := asked x (f.value x)
  values x := asked x (f.values x)
  gradient x := asked x (f.gradient x)
  valueAndGradient x := asked x (f.valueAndGradient x)
  jacobian x := asked x (f.jacobian x)
  step := f.step

def Problem.traced (P : Problem σ α) : Problem (σ × List (Vec α)) α :=
  ⟨P.objective.traced, P.region⟩

theorem Objective.traced_evaluates {f : Objective σ α} {value : Vec α → Checked α α}
    {gradient : Vec α → Checked α (Vec α)} (evaluates : f.Evaluates value gradient) :
    f.traced.Evaluates value gradient where
  value x o := evaluates.value x o.1
  gradient x o := evaluates.gradient x o.1
  valueAndGradient h := evaluates.valueAndGradient h

theorem Problem.traced_allows (P : Problem σ α) :
    P.traced.Allows (fun o => ∀ x ∈ o.2, P.region.contains x = true) where
  value hfeasible h := List.forall_mem_cons.mpr ⟨hfeasible, h⟩
  gradient hfeasible h := List.forall_mem_cons.mpr ⟨hfeasible, h⟩
  valueAndGradient hfeasible h := List.forall_mem_cons.mpr ⟨hfeasible, h⟩

/-! ## A limit on requests -/

def rationed {β : Type} (e : Eval σ α β) : Eval (σ × Nat) α β
  | (o, 0) => (.error (.error .userAbort), o, 0)
  | (o, left + 1) =>
      let (answer, o) := e o
      (answer, o, left)

def Objective.limited (f : Objective σ α) : Objective (σ × Nat) α where
  value x := rationed (f.value x)
  values x := rationed (f.values x)
  gradient x := rationed (f.gradient x)
  valueAndGradient x := rationed (f.valueAndGradient x)
  jacobian x := rationed (f.jacobian x)
  step := f.step

def Problem.limited (P : Problem σ α) : Problem (σ × Nat) α := ⟨P.objective.limited, P.region⟩

def Progress.limited (p : Progress σ α) (requests : Nat) : Progress (σ × Nat) α :=
  ⟨(p.oracle, requests), p.point, p.value, p.gradientNormSq, p.valueCount, p.gradientCount⟩

theorem Objective.limited_costs [Scalar α] {f : Objective σ α} {value : Vec α → α}
    {log : σ → List (Vec α)} (costs : f.Costs value log) :
    f.limited.Costs value (fun o => log o.1) where
  value_eq := by
    rintro x ⟨o, left⟩ v h
    cases left with
    | zero => contradiction
    | succ left => exact costs.value_eq h
  log_eq := by
    rintro x ⟨o, left⟩ v h
    cases left with
    | zero => contradiction
    | succ left => exact costs.log_eq h
  defined := costs.defined

/-- `grant` makes one request more possible and changes nothing else: a request that does not
fail is answered as before. -/
structure Objective.Grants (f : Objective σ α) (grant : σ → σ) (log : σ → List (Vec α)) :
    Prop where
  value (x : Vec α) (o : σ) :
    f.value x (grant o) = ((f.value x o).1, grant (f.value x o).2) ∨ ∃ e, (f.value x o).1 = .error e
  log_eq (o : σ) : log (grant o) = log o

theorem Objective.grants_id (f : Objective σ α) (log : σ → List (Vec α)) : f.Grants id log :=
  ⟨fun _ _ => .inl rfl, fun _ => rfl⟩

theorem Objective.limited_grants (f : Objective σ α) (log : σ → List (Vec α)) :
    f.limited.Grants (fun o => (o.1, o.2 + 1)) (fun o => log o.1) where
  value x o := by
    obtain ⟨o, left⟩ := o
    cases left with
    | zero => exact .inr ⟨_, rfl⟩
    | succ left => exact .inl rfl
  log_eq _ := rfl

/-! ## Recorded costs -/

namespace Cost

def answer {β : Type} (f : Vec α → Except String β) (x : Vec α) : Checked α β :=
  ((f x).mapError Error.costFunction).mapError Failure.error

def components (c : Cost α) (x : Vec α) : Checked α (Vec α) :=
  match c.values with
  | some values => answer values x
  | none => (answer c.value x).map ([·])

theorem objective_answers [Scalar α] (c : Cost α) :
    c.objective.Answers (answer c.value) c.components where
  value _ _ := rfl
  values x o := by
    rcases c with ⟨value, values, gradient, jacobian, step⟩
    cases values with
    | some values => rfl
    | none =>
        change (Objective.singleton (record .value value) x o).1 = (answer value x).map ([·])
        rw [Objective.singleton, bind_apply, record, answer]
        cases value x with
        | ok v => rfl
        | error reason => rfl

theorem objective_evaluates [Scalar α] {c : Cost α} {gradient : Vec α → Except String (Vec α)}
    (hgradient : c.gradient = some gradient) :
    c.objective.Evaluates (answer c.value) (answer gradient) where
  value _ _ := rfl
  gradient x o := by
    change ((c.gradient.map (record .gradient)).getD _ x o).1 = _
    rw [hgradient]
    rfl
  valueAndGradient := by
    intro x o v g h
    have hrun : Objective.gradientThenValue (record .value c.value)
        ((c.gradient.map (record .gradient)).getD _) x o =
          (.ok (v, g), (c.objective.valueAndGradient x o).2) := Prod.ext h rfl
    rw [hgradient] at hrun
    obtain ⟨g', o', hg, hrest⟩ := bind_eq_ok hrun
    obtain ⟨v', o'', hv, hpure⟩ := bind_eq_ok hrest
    cases hpure
    exact ⟨congrArg Prod.fst hv, congrArg Prod.fst hg⟩

def valueOrZero [Scalar α] (c : Cost α) (x : Vec α) : α := (c.value x).toOption.getD 0

def point : Evaluation α → Vec α
  | .value x _ | .values x _ | .gradient x _ | .jacobian x _ => x

theorem objective_logs [Scalar α] (c : Cost α) : c.objective.Logs (List.map point) :=
  ⟨fun _ _ => rfl⟩

theorem objective_costs [Scalar α] {c : Cost α}
    (hdefined : ∀ x, c.valueOrZero x ≤ c.valueOrZero x) :
    c.objective.Costs c.valueOrZero (List.map point) where
  value_eq := by
    intro x o v h
    change (((c.value x).mapError Error.costFunction).mapError Failure.error) = .ok v at h
    unfold valueOrZero
    cases hvalue : c.value x with
    | ok v' =>
        rw [hvalue] at h
        cases h
        rfl
    | error reason =>
        rw [hvalue] at h
        contradiction
  log_eq _ := rfl
  defined := hdefined

end Cost

end Minima
