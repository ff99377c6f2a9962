import Minima.Proofs.Objective

/-!
# Work that leaves the current point alone

Requests through a problem change its counts and the state of its objective.
The current point, and the value and the norm stored for it, stay.
-/

namespace Minima

variable {σ α : Type}

/-- From `p` to `p'` the point and what is stored for it stay, and `Q` holds in the end. -/
structure Progress.Stays (Q : σ → Prop) (p p' : Progress σ α) : Prop where
  point_eq : p'.point = p.point
  value_eq : p'.value = p.value
  gradientNormSq_eq : p'.gradientNormSq = p.gradientNormSq
  allowed : Q p'.oracle

theorem Progress.Stays.refl {Q : σ → Prop} {p : Progress σ α} (h : Q p.oracle) : p.Stays Q p :=
  ⟨rfl, rfl, rfl, h⟩

theorem Progress.Stays.trans {Q : σ → Prop} {p p' p'' : Progress σ α} (h : p.Stays Q p')
    (h' : p'.Stays Q p'') : p.Stays Q p'' :=
  ⟨h'.point_eq.trans h.point_eq, h'.value_eq.trans h.value_eq,
    h'.gradientNormSq_eq.trans h.gradientNormSq_eq, h'.allowed⟩

variable {P : Problem σ α} {value : Vec α → Checked α α} {gradient : Vec α → Checked α (Vec α)}
  {Q : σ → Prop} {p : Progress σ α} {x : Vec α}

theorem leads_value (evaluates : P.objective.Evaluates value gradient) (allows : P.Allows Q)
    (hx : P.region.contains x = true) (hQ : Q p.oracle) :
    Leads (P.value x) p (fun v p' => value x = .ok v ∧ p.Stays Q p')
      (fun _ p' => p.Stays Q p') := by
  unfold Problem.value Problem.countValue
  simp only [leads_bind, leads_modify, leads_uncounted]
  refine (leads_of_answer (evaluates.value x p.oracle) (allows.value hx hQ)).mono ?_ ?_
  · exact fun v o h => ⟨h.1, rfl, rfl, rfl, h.2⟩
  · exact fun _ o h => ⟨rfl, rfl, rfl, h⟩

theorem leads_gradient (evaluates : P.objective.Evaluates value gradient) (allows : P.Allows Q)
    (hx : P.region.contains x = true) (hQ : Q p.oracle) :
    Leads (P.gradient x) p (fun g p' => gradient x = .ok g ∧ p.Stays Q p')
      (fun _ p' => p.Stays Q p') := by
  unfold Problem.gradient Problem.countGradient
  simp only [leads_bind, leads_modify, leads_uncounted]
  refine (leads_of_answer (evaluates.gradient x p.oracle) (allows.gradient hx hQ)).mono ?_ ?_
  · exact fun v o h => ⟨h.1, rfl, rfl, rfl, h.2⟩
  · exact fun _ o h => ⟨rfl, rfl, rfl, h⟩

theorem leads_valueAndGradient (evaluates : P.objective.Evaluates value gradient)
    (allows : P.Allows Q) (hx : P.region.contains x = true) (hQ : Q p.oracle) :
    Leads (P.valueAndGradient x) p
      (fun (v, g) p' => (value x = .ok v ∧ gradient x = .ok g) ∧ p.Stays Q p')
      (fun _ p' => p.Stays Q p') := by
  unfold Problem.valueAndGradient Problem.countValue Problem.countGradient
  simp only [leads_bind, leads_modify, leads_uncounted]
  have hanswer : (P.objective.valueAndGradient x p.oracle).1 = _ := rfl
  refine (leads_of_answer hanswer (allows.valueAndGradient hx hQ)).mono ?_ ?_
  · exact fun v o h => ⟨evaluates.valueAndGradient h.1, rfl, rfl, rfl, h.2⟩
  · exact fun _ o h => ⟨rfl, rfl, rfl, h⟩

/-! ## Costs alone -/

variable {μ : Type}

theorem work_value_apply (P : Problem σ α) (x : Vec α) (s : Session σ μ α) :
    Run.work (P.value x) s = ((P.objective.value x s.progress.oracle).1,
      { s with progress := { s.progress with
          oracle := (P.objective.value x s.progress.oracle).2
          valueCount := s.progress.valueCount + 1 } }) := rfl

theorem leads_logged {log : σ → List (Vec α)} (logs : P.objective.Logs log) (x : Vec α)
    (s : Session σ μ α) :
    Leads (Run.work (P.value x)) s
      (fun v s' => (P.objective.value x s.progress.oracle).1 = .ok v ∧
        log s'.progress.oracle = x :: log s.progress.oracle ∧ s'.rule = s.rule ∧
        s'.memory = s.memory)
      (fun e s' => (P.objective.value x s.progress.oracle).1 = .error e ∧
        log s'.progress.oracle = x :: log s.progress.oracle ∧ s'.rule = s.rule ∧
        s'.memory = s.memory) := by
  unfold Leads
  rw [work_value_apply]
  cases (P.objective.value x s.progress.oracle).1 with
  | ok v => exact ⟨rfl, logs.value x _, rfl, rfl⟩
  | error e => exact ⟨rfl, logs.value x _, rfl, rfl⟩

theorem leads_work_value [Scalar α] {cost : Vec α → α} {log : σ → List (Vec α)}
    (costs : P.objective.Costs cost log) (x : Vec α)
    (s : Session σ μ α) :
    Leads (Run.work (P.value x)) s
      (fun v s' => v = cost x ∧ log s'.progress.oracle = x :: log s.progress.oracle ∧
        s'.rule = s.rule ∧ s'.memory = s.memory)
      (fun _ s' => s'.memory = s.memory) := by
  unfold Leads
  rw [work_value_apply]
  cases hanswer : (P.objective.value x s.progress.oracle).1 with
  | ok v => exact ⟨costs.value_eq hanswer, costs.log_eq hanswer, rfl, rfl⟩
  | error e => rfl

end Minima
