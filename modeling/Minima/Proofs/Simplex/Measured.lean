import Minima.Proofs.Simplex.Feasible
import Minima.Proofs.Simplex.Outcome

/-!
# The costs of the vertices

From the first iteration on the values of a simplex are the costs at its vertices, whether they
can be compared or not.  So the value that a run stores at its end is the cost at the point where
it ends.
-/

namespace Minima

def Progress.Measured {σ α : Type} (value : Vec α → Checked α α) (p : Progress σ α) : Prop :=
  ∃ v, p.value = some v ∧ value p.point = .ok v

theorem leads_value_answer {σ α μ : Type} {P : Problem σ α} {value : Vec α → Checked α α}
    (hvalue : ∀ x o, (P.objective.value x o).1 = value x) (x : Vec α) (s : Session σ μ α) :
    Leads (Run.work (P.value x)) s
      (fun v s' => value x = .ok v ∧ s'.memory = s.memory) (fun _ _ => True) := by
  unfold Leads
  rw [work_value_apply, hvalue]
  cases value x with
  | ok v => exact ⟨rfl, rfl⟩
  | error e => trivial

namespace Simplex

theorem forall₂_set {β γ : Type} {R : β → γ → Prop} {l : List β} {l' : List γ} {b : β} {c : γ}
    (h : List.Forall₂ R l l') (hbc : R b c) (i : Nat) :
    List.Forall₂ R (l.set i b) (l'.set i c) := by
  induction h generalizing i with
  | nil => exact .nil
  | cons hhead htail ih =>
      cases i with
      | zero => exact .cons hbc htail
      | succ i => exact .cons hhead (ih i)

variable {σ α : Type} [Scalar α] {P : Problem σ α} {value : Vec α → Checked α α} {n i : Nat}
  {x : Vec α} {v : α} {t t' : Simplex α} {origin s s' : Session σ (Simplex α) α}

structure Measured (value : Vec α → Checked α α) (n : Nat) (t : Simplex α) : Prop where
  costs : List.Forall₂ (fun x v => value x = .ok v) t.vertices t.values
  length_values : t.values.length = n

omit [Scalar α] in
theorem Measured.set (h : Measured value n t) (hv : value x = .ok v)
    (hvertices : t'.vertices = t.vertices.set i x) (hvalues : t'.values = t.values.set i v) :
    Measured value n t' where
  costs := by
    rw [hvertices, hvalues]
    exact forall₂_set h.costs hv i
  length_values := by rw [hvalues, List.length_set, h.length_values]

theorem Measured.getD (h : Measured value n t) (hi : i < n) :
    value (t.vertices.getD i []) = .ok (t.values.getD i 0) := by
  have hvalues : i < t.values.length := h.length_values.symm ▸ hi
  have hvertices : i < t.vertices.length := h.costs.length_eq.symm ▸ hvalues
  rw [List.getD_eq_getElem _ _ hvertices, List.getD_eq_getElem _ _ hvalues]
  exact h.costs.get hvertices hvalues

/-! ## Moves -/

section Moves

variable (hvalue : ∀ x o, (P.objective.value x o).1 = value x)
include hvalue

theorem upholds_extrapolate_measured (highest : Nat) (factor : α) :
    Upholds (fun s => Measured value n s.memory) (fun _ _ => True)
      (extrapolate P highest factor) := by
  intro s h
  unfold extrapolate
  rw [leads_bind, leads_get]
  dsimp only
  split
  · exact h
  · refine (leads_value_answer hvalue _ s).bind ?_
    rintro v s₁ ⟨hv, hmemory⟩
    simp only [leads_bind, leads_ite, leads_remember, leads_pure, hmemory]
    exact ⟨fun _ => h.set hv rfl rfl, fun _ => h⟩

theorem upholds_shrinkVertex_measured (lowest i : Nat) :
    Upholds (fun s => Measured value n s.memory) (fun _ _ => True) (shrinkVertex P lowest i) := by
  intro s h
  unfold shrinkVertex
  rw [leads_ite]
  refine ⟨fun _ => ?_, fun _ => h⟩
  rw [leads_bind, leads_get]
  dsimp only
  generalize Vec.scale (0.5 : α) _ = x
  simp only [leads_bind, leads_remember]
  refine (leads_value_answer hvalue x _).imp ?_
  rintro v s₁ ⟨hv, hmemory⟩
  rw [hmemory]
  exact h.set hv rfl rfl

theorem upholds_shrink_measured (lowest : Nat) :
    Upholds (fun s => Measured value n s.memory) (fun _ _ => True) (shrink P lowest) :=
  upholds_get.bind fun _ => upholds_forM (upholds_shrinkVertex_measured hvalue lowest)

theorem upholds_contract_measured (r : Ranking) :
    Upholds (fun s => Measured value n s.memory) (fun _ _ => True) (contract P r) := by
  refine upholds_get.bind fun s => (upholds_extrapolate_measured hvalue _ _).bind fun made => ?_
  cases made with
  | none => exact upholds_pure _
  | some contracted =>
      exact .ite ((upholds_shrink_measured hvalue r.lowest).bind fun _ => upholds_pure _)
        (upholds_pure _)

theorem upholds_moves_measured (r : Ranking) :
    Upholds (fun s => Measured value n s.memory) (fun _ _ => True) (moves P r) := by
  refine (upholds_extrapolate_measured hvalue _ _).bind fun made => ?_
  cases made with
  | none => exact upholds_pure _
  | some reflected =>
      refine upholds_get.bind fun s =>
        .ite ?_ (.ite (upholds_contract_measured hvalue r) (upholds_pure _))
      exact (upholds_extrapolate_measured hvalue _ _).bind fun _ => upholds_pure _

/-! ## Runs -/

theorem leads_evaluateVertices_measured {done rest : List (Vec α)}
    (hfeasible : ∀ x ∈ rest, P.region.contains x = true)
    (hvertices : s.memory.vertices = done ++ rest)
    (hdone : List.Forall₂ (fun x v => value x = .ok v) done s.memory.values) :
    Leads (evaluateVertices P rest) s
      (fun _ s' => Measured value (done ++ rest).length s'.memory) (fun _ _ => True) := by
  induction rest generalizing done s with
  | nil =>
      rw [List.append_nil] at hvertices ⊢
      exact ⟨by rw [hvertices]; exact hdone, hdone.length_eq.symm⟩
  | cons x rest ih =>
      rw [List.forall_mem_cons] at hfeasible
      unfold evaluateVertices
      rw [if_pos hfeasible.1]
      refine (leads_value_answer hvalue x s).bind ?_
      rintro v s₁ ⟨hv, hmemory⟩
      rw [leads_bind, leads_remember, hmemory]
      rw [List.append_cons done x rest] at hvertices ⊢
      exact ih (s := { s₁ with memory := { s.memory with values := s.memory.values ++ [v] } })
        hfeasible.2 hvertices (List.rel_append hdone (.cons hv .nil))

theorem leads_pass_measured (hn : 0 < n) (dimension iteration : Nat)
    (h : Measured value n s.memory) :
    Leads (pass P dimension iteration) s
      (fun ended s' => match ended with
        | none => Measured value n s'.memory
        | some _ => s'.progress.Measured value)
      (fun _ _ => True) := by
  have hlowest : (ranking s.memory.values).lowest < n := by
    rw [← h.length_values]
    exact lowest_ranking_lt (h.length_values.symm ▸ hn)
  unfold pass rank
  simp only [leads_bind, leads_remember, leads_get, leads_pure]
  refine leads_finished.imp ?_
  rintro fired s₁ ⟨hmemory, -, -⟩
  have h₁ : Measured value n s₁.memory := by
    rw [hmemory]
    exact { h with }
  rw [leads_ite]
  constructor
  · intro _
    unfold finish settle
    simp only [leads_bind, leads_mark, leads_check, leads_get, leads_settle, leads_outcome]
    exact ⟨_, rfl, h₁.getD hlowest⟩
  · intro _
    refine (upholds_moves_measured hvalue _ s₁ h₁).bind fun room s₂ h₂ => ?_
    unfold settle
    simp only [leads_ite, leads_pure, leads_bind, leads_mark, leads_get, leads_settle]
    exact ⟨fun _ => h₂, fun _ => ⟨_, rfl, h₂.getD hlowest⟩⟩

theorem Reaches.measured (h : Reaches P origin i s) : ∃ n, 0 < n ∧ Measured value n s.memory := by
  induction h with
  | start hlaid hevaluated =>
      rw [start_apply] at hlaid
      cases hvertices : checkedVertices P.region origin.progress.point origin.memory.lambda with
      | error e =>
          rw [hvertices] at hlaid
          cases hlaid
      | ok vertices =>
          rw [hvertices] at hlaid
          cases hlaid
          obtain ⟨hlength, hfeasible⟩ := checkedVertices_eq_ok hvertices
          have hmeasured := (leads_evaluateVertices_measured hvalue hfeasible rfl
            .nil).of_ok hevaluated
          exact ⟨_, Nat.zero_lt_of_lt hlength, hmeasured⟩
  | pass _ hpass ih =>
      obtain ⟨n, hn, hmeasured⟩ := ih
      exact ⟨n, hn, (leads_pass_measured hvalue hn _ _ hmeasured).of_ok hpass⟩

theorem Ends.measured {stops : Bool} (h : Ends P origin i stops s') :
    s'.progress.Measured value := by
  obtain ⟨s, r, s₁, t, o, hreaches, -, -, hpass⟩ := h
  obtain ⟨n, hn, hmeasured⟩ := hreaches.measured hvalue
  exact (leads_pass_measured hvalue hn _ _ hmeasured).of_ok hpass

end Moves

end Simplex

end Minima
