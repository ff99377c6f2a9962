import Minima.Proofs.Objective.Sweep
import Minima.Proofs.Progress
import Minima.Proofs.Upholds

/-!
# Requests that fail

The functions that a caller gives for an objective are entered in a ledger whenever they are
evaluated, each evaluation with its failure if it has one.  `Objective.Reports` says that
requests to an objective uphold a property of its state while they are answered, and hand on
what is said of failures; it is all that a method has to know to be followed through to the
failure that it ends with.
-/

namespace Minima

variable {σ α β : Type}

def Failure.isOwn : Failure α → Bool
  | .sizeMismatch | .refused _ => true
  | .error (.invalidArgument _) | .error (.infeasibleStep _) | .error (.leastSquares _) => true
  | .error .infeasibleStart | .error (.costFunction _) | .error .userAbort => false

/-! ## Checks -/

def FailsOwn (answer : Checked α β) : Prop := ∀ e, answer = .error e → e.isOwn = true

theorem failsOwn_ok (b : β) : FailsOwn (.ok b : Checked α β) := nofun

theorem failsOwn_error {e : Failure α} (h : e.isOwn = true) :
    FailsOwn (.error e : Checked α β) := by
  rintro _ ⟨⟩
  exact h

theorem FailsOwn.bind {γ : Type} {first : Checked α β} {next : β → Checked α γ}
    (h : FailsOwn first) (hnext : ∀ b, FailsOwn (next b)) : FailsOwn (first >>= next) := by
  cases first with
  | ok b => exact hnext b
  | error e => exact failsOwn_error (h e rfl)

theorem FailsOwn.map {γ : Type} {answer : Checked α β} (h : FailsOwn answer) (f : β → γ) :
    FailsOwn (f <$> answer) := by
  cases answer with
  | ok b => exact failsOwn_ok _
  | error e => exact failsOwn_error (h e rfl)

theorem FailsOwn.ite {p : Prop} [Decidable p] {first second : Checked α β} (h : FailsOwn first)
    (h' : FailsOwn second) : FailsOwn (if p then first else second) := by
  split
  · exact h
  · exact h'

theorem failsOwn_mapM {γ : Type} {f : β → Checked α γ} {inputs : List β}
    (h : ∀ b, FailsOwn (f b)) : FailsOwn (inputs.mapM f) := by
  induction inputs with
  | nil => exact failsOwn_ok _
  | cons b inputs ih =>
      rw [List.mapM_cons]
      exact (h b).bind fun _ => ih.bind fun _ => failsOwn_ok _

theorem failsOwn_requireSame (m n : Nat) : FailsOwn (requireSame m n : Checked α Unit) :=
  .ite (failsOwn_ok _) (failsOwn_error rfl)

theorem eq_sizeMismatch_of_requireSame {m n : Nat} {e : Failure α}
    (h : requireSame m n = .error e) : e = .sizeMismatch := by
  unfold requireSame at h
  split at h
  · cases h
  · cases h
    rfl

theorem eq_sizeMismatch_of_ofColumns {rows : Nat} {columns : List (Vec α)} {e : Failure α}
    (h : DenseMatrix.ofColumns rows columns = .error e) : e = .sizeMismatch := by
  unfold DenseMatrix.ofColumns at h
  split at h
  · cases h
  · cases h
    rfl

theorem failsOwn_move [Scalar α] (region : Region α) (x direction : Vec α) (step : α) :
    FailsOwn (region.move x direction step) := by
  refine (failsOwn_requireSame _ _).bind fun _ => ?_
  split
  · exact failsOwn_ok _
  · exact failsOwn_error rfl

/-! ## Objectives that report -/

/-- Requests keep a property of the state, and lead to `stop` where they fail; so does every
failure that needs no request. -/
structure Objective.Reports (f : Objective σ α) (keep : σ → Prop) (stop : Failure α → σ → Prop) :
    Prop where
  value (x : Vec α) : Upholds keep stop (f.value x)
  values (x : Vec α) : Upholds keep stop (f.values x)
  gradient (x : Vec α) : Upholds keep stop (f.gradient x)
  valueAndGradient (x : Vec α) : Upholds keep stop (f.valueAndGradient x)
  jacobian (x : Vec α) : Upholds keep stop (f.jacobian x)
  own {e : Failure α} {o : σ} : e.isOwn = true → keep o → stop e o

/-! ## Requests through a problem -/

section Problem

variable {P : Problem σ α} {keep : σ → Prop} {stop : Failure α → σ → Prop}

theorem Objective.Reports.work_value (reports : P.objective.Reports keep stop) (x : Vec α) :
    Upholds (fun p => keep p.oracle) (fun e p => stop e p.oracle) (P.value x) :=
  Upholds.bind (upholds_modify fun _ h => h) fun _ => (reports.value x).uncounted

theorem Objective.Reports.work_gradient (reports : P.objective.Reports keep stop) (x : Vec α) :
    Upholds (fun p => keep p.oracle) (fun e p => stop e p.oracle) (P.gradient x) :=
  Upholds.bind (upholds_modify fun _ h => h) fun _ => (reports.gradient x).uncounted

theorem Objective.Reports.work_valueAndGradient (reports : P.objective.Reports keep stop)
    (x : Vec α) :
    Upholds (fun p => keep p.oracle) (fun e p => stop e p.oracle) (P.valueAndGradient x) :=
  Upholds.bind (upholds_modify fun _ h => h) fun _ =>
    Upholds.bind (upholds_modify fun _ h => h) fun _ => (reports.valueAndGradient x).uncounted

variable {μ : Type}

theorem Objective.Reports.bears (reports : P.objective.Reports keep stop) :
    P.Bears (fun s : Session σ μ α => keep s.progress.oracle)
      (fun e s => stop e s.progress.oracle) where
  value x := (reports.work_value x).work
  memory _ h := h

def Accounts (keep : σ → Prop) (stop : Failure α → σ → Prop) (act : Run σ μ α β)
    (s : Session σ μ α) : Prop :=
  Leads act s (fun _ s' => keep s'.progress.oracle) fun e s' =>
    stop e s'.progress.oracle ∨
      (e = .error .infeasibleStart ∧ s'.progress = s.progress.reset)

end Problem

/-! ## Objectives put together from parts -/

namespace Objective

variable {keep : σ → Prop} {stop : Failure α → σ → Prop} {value : Vec α → Eval σ α α}
  {values : Vec α → Eval σ α (Vec α)}

theorem upholds_singleton (hvalue : ∀ x, Upholds keep stop (value x)) (x : Vec α) :
    Upholds keep stop (singleton value x) :=
  (hvalue x).bind fun _ => upholds_pure _

theorem upholds_gradientThenValue {gradient : Vec α → Eval σ α (Vec α)}
    (hvalue : ∀ x, Upholds keep stop (value x)) (hgradient : ∀ x, Upholds keep stop (gradient x))
    (x : Vec α) : Upholds keep stop (gradientThenValue value gradient x) :=
  (hgradient x).bind fun _ => (hvalue x).bind fun _ => upholds_pure _

variable [Scalar α]

theorem upholds_sweep {γ : Type} {ask : Vec α → Eval σ α β}
    (hask : ∀ x, Upholds keep stop (ask x)) {quotient : β → β → Checked α γ}
    (hquotient : ∀ after before e o, quotient after before = .error e → keep o → stop e o) (h : α)
    (x : Vec α) (is : List Nat) : Upholds keep stop (sweep (turn ask quotient h x) is x) := by
  rw [sweep_turn]
  exact upholds_mapM fun _ => (hask _).bind fun _ => (hask _).bind fun _ =>
    upholds_attempt (hquotient _ _)

theorem eq_sizeMismatch_of_slopes {h : α} {after before : Vec α} {e : Failure α}
    (he : slopes h after before = .error e) : e = .sizeMismatch := by
  unfold slopes at he
  cases hsame : requireSame (α := α) after.length before.length with
  | ok =>
      rw [hsame] at he
      cases he
  | error failure =>
      rw [hsame] at he
      cases he
      exact eq_sizeMismatch_of_requireSame hsame

theorem upholds_centralGradient (hvalue : ∀ x, Upholds keep stop (value x)) (h : α) (x : Vec α) :
    Upholds keep stop (centralGradient value h x) :=
  upholds_sweep hvalue (fun _ _ _ _ he => by cases he) h x _

theorem upholds_centralJacobian (hmismatch : ∀ o, keep o → stop .sizeMismatch o)
    (hvalues : ∀ x, Upholds keep stop (values x)) (h : α) (x : Vec α) :
    Upholds keep stop (centralJacobian values h x) := by
  refine (upholds_sweep hvalues (fun _ _ _ o he => ?_) h x _).bind fun columns => ?_
  · rw [eq_sizeMismatch_of_slopes he]
    exact hmismatch o
  cases columns with
  | nil => exact (hvalues x).bind fun _ => upholds_pure _
  | cons first rest =>
      refine upholds_attempt fun e o he => ?_
      rw [eq_sizeMismatch_of_ofColumns he]
      exact hmismatch o

theorem ofParts_reports {values : Option (Vec α → Eval σ α (Vec α))}
    {gradient : Option (Vec α → Eval σ α (Vec α))}
    {jacobian : Option (Vec α → Eval σ α (DenseMatrix α))}
    (hown : ∀ e o, e.isOwn = true → keep o → stop e o)
    (hvalue : ∀ x, Upholds keep stop (value x))
    (hvalues : ∀ given ∈ values, ∀ x, Upholds keep stop (given x))
    (hgradient : ∀ given ∈ gradient, ∀ x, Upholds keep stop (given x))
    (hjacobian : ∀ given ∈ jacobian, ∀ x, Upholds keep stop (given x)) (step : α) :
    (ofParts value values gradient jacobian step).Reports keep stop := by
  have hcomponents : ∀ x, Upholds keep stop (values.getD (singleton value) x) := by
    cases values with
    | none => exact upholds_singleton hvalue
    | some given => exact hvalues given rfl
  have hslopes : ∀ x, Upholds keep stop (gradient.getD (centralGradient value step) x) := by
    cases gradient with
    | none => exact upholds_centralGradient hvalue step
    | some given => exact hgradient given rfl
  exact {
    value := hvalue
    values := hcomponents
    gradient := hslopes
    valueAndGradient := upholds_gradientThenValue hvalue hslopes
    jacobian := by
      cases jacobian with
      | none => exact upholds_centralJacobian (fun o => hown _ o rfl) hcomponents step
      | some given => exact hjacobian given rfl
    own := hown _ _
  }

end Objective

/-! ## A ledger of evaluations -/

/-- The functions that a caller gives for an objective, each a machine that may fail. -/
structure Parts (σ α : Type) where
  value : Vec α → Eval σ α α
  values : Option (Vec α → Eval σ α (Vec α))
  gradient : Option (Vec α → Eval σ α (Vec α))
  valueAndGradient : Option (Vec α → Eval σ α (α × Vec α))
  jacobian : Option (Vec α → Eval σ α (DenseMatrix α))
  step : α

def Parts.objective [Scalar α] (c : Parts σ α) : Objective σ α :=
  let f := Objective.ofParts c.value c.values c.gradient c.jacobian c.step
  { f with valueAndGradient := c.valueAndGradient.getD f.valueAndGradient }

structure Entry (α : Type) where
  point : Vec α
  failure : Option (Failure α)

def failureOf : Checked α β → Option (Failure α)
  | .ok _ => none
  | .error e => some e

def entered (f : Vec α → Eval σ α β) (x : Vec α) : Eval (σ × List (Entry α)) α β :=
  fun (o, ledger) =>
    let (answer, o) := f x o
    (answer, o, ⟨x, failureOf answer⟩ :: ledger)

/-- The same functions with a ledger of their evaluations, the last one first. -/
def Parts.entered (c : Parts σ α) : Parts (σ × List (Entry α)) α where
  value := Minima.entered c.value
  values := c.values.map Minima.entered
  gradient := c.gradient.map Minima.entered
  valueAndGradient := c.valueAndGradient.map Minima.entered
  jacobian := c.jacobian.map Minima.entered
  step := c.step

variable {earlier : List (Entry α)} {o : σ × List (Entry α)} {e : Failure α}

def Answered (earlier : List (Entry α)) (o : σ × List (Entry α)) : Prop :=
  ∃ made, o.2 = made ++ earlier ∧ ∀ entry ∈ made, entry.failure = none

def Blamed (earlier : List (Entry α)) (e : Failure α) (o : σ × List (Entry α)) : Prop :=
  ∃ last made, o.2 = last :: made ++ earlier ∧ last.failure = some e ∧
    ∀ entry ∈ made, entry.failure = none

/-- The last evaluation is to blame, or none is and the failure is the method's own. -/
def Explained (earlier : List (Entry α)) (e : Failure α) (o : σ × List (Entry α)) : Prop :=
  (e.isOwn = true ∧ Answered earlier o) ∨ Blamed earlier e o

/-- The answer to the evaluations that a run has made: one that fails is the last of them, and
the run fails as it did. -/
def EndsWith (made : List (Entry α)) (answer : Checked α β) : Prop :=
  ∀ after entry before failure, made = after ++ entry :: before → entry.failure = some failure →
    after = [] ∧ answer = .error failure

theorem endsWith_of_answered {made : List (Entry α)} (h : ∀ entry ∈ made, entry.failure = none)
    (answer : Checked α β) : EndsWith made answer := by
  rintro after entry before failure rfl hfailure
  rw [h entry (by simp)] at hfailure
  contradiction

theorem endsWith_of_blamed {last : Entry α} {made : List (Entry α)} {e : Failure α}
    (hlast : last.failure = some e) (h : ∀ entry ∈ made, entry.failure = none) :
    EndsWith (last :: made) (.error e : Checked α β) := by
  rintro after entry before failure hmade hfailure
  cases after with
  | nil =>
      obtain ⟨rfl, rfl⟩ := List.cons.inj hmade
      exact ⟨rfl, by rw [Option.some.inj (hlast.symm.trans hfailure)]⟩
  | cons first after =>
      obtain ⟨rfl, rfl⟩ := List.cons.inj hmade
      rw [h entry (by simp)] at hfailure
      contradiction

theorem answered_refl (o : σ × List (Entry α)) : Answered o.2 o := ⟨[], rfl, nofun⟩

theorem upholds_entered (f : Vec α → Eval σ α β) (x : Vec α) :
    Upholds (Answered earlier) (Explained earlier) (entered f x) := by
  rintro ⟨o, ledger⟩ ⟨made, rfl, hmade⟩
  unfold Leads entered
  dsimp only
  rcases f x o with ⟨answer, o'⟩
  cases answer with
  | ok b => exact ⟨⟨x, none⟩ :: made, rfl, List.forall_mem_cons.mpr ⟨rfl, hmade⟩⟩
  | error e => exact .inr ⟨⟨x, some e⟩, made, rfl, rfl, hmade⟩

/-- Whatever an objective is made of, its ledger accounts for its failures. -/
theorem Parts.entered_reports [Scalar α] (c : Parts σ α) (earlier : List (Entry α)) :
    c.entered.objective.Reports (Answered earlier) (Explained earlier) := by
  have hgiven {β : Type} {part : Option (Vec α → Eval σ α β)} :
      ∀ given ∈ part.map Minima.entered, ∀ x,
        Upholds (Answered earlier) (Explained earlier) (given x) := by
    intro given hmem x
    obtain ⟨f, -, rfl⟩ := Option.map_eq_some_iff.mp hmem
    exact upholds_entered f x
  have hparts : (Objective.ofParts (Minima.entered c.value) (c.values.map Minima.entered)
      (c.gradient.map Minima.entered) (c.jacobian.map Minima.entered) c.step).Reports
      (Answered earlier) (Explained earlier) :=
    Objective.ofParts_reports (fun _ _ hown h => .inl ⟨hown, h⟩) (upholds_entered c.value)
      hgiven hgiven hgiven c.step
  refine { hparts with valueAndGradient := fun x => ?_ }
  change Upholds _ _ ((c.valueAndGradient.map Minima.entered).getD _ x)
  cases hpart : c.valueAndGradient with
  | none => exact hparts.valueAndGradient x
  | some f => exact upholds_entered f x

end Minima
