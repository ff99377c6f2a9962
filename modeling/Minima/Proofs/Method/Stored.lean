import Minima.Proofs.Method.Outcome
import Minima.Proofs.Simplex.Measured

/-!
# The stored value

A run that ends with an outcome has stored a value.  The descent methods, the simplex and the
least squares solver store the cost at the point where they end, whatever it is.
-/

namespace Minima

variable {σ α : Type} [Scalar α] {P : Problem σ α} {value : Vec α → Checked α α}
  {gradient : Vec α → Checked α (Vec α)}

/-! ## Descents -/

namespace Descent

variable {κ : Type} [Directions κ α] {origin s s' : Session σ (DescentBy κ α) α} {i : Nat}
  {stand : Stand α} {r : SearchResult α}

theorem Ends.stored (h : Ends P origin i r s') : ∃ v, s'.progress.value = some v := by
  obtain ⟨stand, s, t, -, -, hadvance⟩ := h
  have hleads : Leads (advance P i stand) s (fun _ s' => ∃ v, s'.progress.value = some v)
      (fun _ _ => True) := by
    apply leads_advance
    refine (leads_true _ _).imp fun r s₁ _ => ⟨fun _ _ => ⟨_, rfl⟩, fun _ => ?_⟩
    exact (leads_true _ _).imp fun _ _ _ _ _ _ => ⟨_, rfl⟩
  exact hleads.of_ok hadvance

theorem Reaches.stands (evaluates : P.objective.Evaluates value gradient)
    (h : Reaches P origin i stand s) :
    Stands P value gradient (fun _ => True) stand s.progress ∧
      Accepted P origin stand.visited.x := by
  induction h with
  | start hrun =>
      obtain ⟨hstands, hpoint, -⟩ := (leads_start evaluates P.allows_true trivial).of_ok hrun
      exact ⟨hstands, .inl hpoint⟩
  | advance hreaches hrun ih =>
      have hadvanced := leads_advance_of_stands evaluates P.allows_true hreaches ih.1 ih.2
      exact (hadvanced.of_ok hrun).2 _ rfl

theorem Ends.measured (evaluates : P.objective.Evaluates value gradient)
    (h : Ends P origin i r s') : s'.progress.Measured value := by
  obtain ⟨v, hv⟩ := h.stored
  obtain ⟨stand, s, t, hreaches, -, hadvance⟩ := h
  obtain ⟨hstands, haccepted⟩ := hreaches.stands evaluates
  have hadvanced := leads_advance_of_stands evaluates P.allows_true hreaches hstands haccepted
  exact ⟨v, hv, (hadvanced.of_ok hadvance).1.rests.value_eq hv⟩

end Descent

/-! ## The other methods -/

theorem Simplex.Ends.stored {origin s' : Session σ (Simplex α) α} {i : Nat} {stops : Bool}
    (h : Simplex.Ends P origin i stops s') : ∃ v, s'.progress.value = some v := by
  obtain ⟨s, r, s₁, t, o, -, -, -, hpass⟩ := h
  have hleads : Leads (Simplex.pass P origin.progress.point.length i) s
      (fun ended s' => ended.isSome → ∃ v, s'.progress.value = some v) (fun _ _ => True) := by
    unfold Simplex.pass Simplex.finish Simplex.settle
    simp only [leads_bind, leads_ite, leads_mark, leads_check, leads_get, leads_settle,
      leads_outcome, leads_pure]
    refine (leads_true _ _).imp fun r s₁ _ => (leads_true _ _).imp fun stops s₂ _ => ?_
    refine ⟨fun _ _ => ⟨_, rfl⟩, fun _ => (leads_true _ _).imp fun room s₃ _ => ?_⟩
    exact ⟨fun _ h => absurd h Bool.false_ne_true, fun _ _ => ⟨_, rfl⟩⟩
  exact hleads.of_ok hpass rfl

theorem Annealing.Ends.stored {ρ : Type} [RandomSource ρ]
    {origin s' : Session σ (Annealing ρ α) α} {i : Nat} {still : Bool}
    (h : Annealing.Ends P origin i still s') : ∃ v, s'.progress.value = some v := by
  obtain ⟨clock, state, s, r, s₁, t, -, -, -, -, hpass⟩ := h
  have hleads : Leads (Annealing.pass P clock state) s
      (fun next s' => next = none → ∃ v, s'.progress.value = some v) (fun _ _ => True) := by
    unfold Annealing.pass
    simp only [leads_bind, leads_ite, leads_get, leads_settle, leads_pure]
    refine (leads_true _ _).imp fun r s₁ _ => (leads_true _ _).imp fun stops s₂ _ => ?_
    exact ⟨fun _ _ => ⟨_, rfl⟩, fun _ =>
      (leads_true _ _).imp fun _ _ _ h => absurd h (Option.some_ne_none _)⟩
  exact hleads.of_ok hpass rfl

theorem Evolution.Ends.stored {ρ : Type} [RandomSource ρ]
    {origin s' : Session σ (Evolution ρ α) α} {k : Nat} (h : Evolution.Ends P origin k s') :
    ∃ v, s'.progress.value = some v := by
  obtain ⟨last, s, -, hsettles⟩ := h
  exact ⟨_, hsettles.value_eq⟩

namespace LeastSquaresMethod

variable {report : Report α} {o : Outcome} {origin s' : Session σ (LeastSquaresMethod α) α}

omit [Scalar α] in
theorem leads_adopt_settled (report : Report α) (x : Vec α)
    (s : Session σ (LeastSquaresMethod α) α) :
    Leads (adopt P report x) s
      (fun _ s' => ∃ v o, s'.progress.value = some v ∧ s'.progress.point = x ∧
        (P.objective.value x o).1 = .ok v)
      (fun _ _ => True) := by
  have hrest (s : Session σ (LeastSquaresMethod α) α) : Leads (do
      let _ ← Run.check (·.checkMaxIterations report.evaluations)
      let value ← Run.work (Problem.uncounted (P.objective.value x))
      Run.work (Problem.settle x value)
      Run.outcome) s
      (fun _ s' => ∃ v o, s'.progress.value = some v ∧ s'.progress.point = x ∧
        (P.objective.value x o).1 = .ok v)
      (fun _ _ => True) := by
    simp only [leads_bind, leads_check, leads_work, leads_uncounted, leads_outcome]
    refine (leads_true _ _).imp_run fun v oracle hrun _ => ?_
    exact ⟨v, s.progress.oracle, rfl, rfl, congrArg Prod.fst hrun⟩
  unfold adopt
  rw [leads_ite]
  constructor
  · intro _
    rw [leads_bind, leads_mark]
    exact hrest _
  · exact fun _ => hrest _

theorem Ends.stored (h : Ends P origin report o s') : ∃ v, s'.progress.value = some v := by
  obtain ⟨solver, first, s, t, -, -, hadopt⟩ := h
  obtain ⟨v, -, hv, -⟩ := (leads_adopt_settled _ _ _).of_ok hadopt
  exact ⟨v, hv⟩

theorem Ends.measured (hvalue : ∀ x o, (P.objective.value x o).1 = value x)
    (h : Ends P origin report o s') : s'.progress.Measured value := by
  obtain ⟨solver, first, s, t, -, -, hadopt⟩ := h
  obtain ⟨v, oracle, hv, hpoint, hanswer⟩ := (leads_adopt_settled _ _ _).of_ok hadopt
  exact ⟨v, hv, by rw [hpoint, ← hvalue _ oracle, hanswer]⟩

end LeastSquaresMethod

/-! ## All methods -/

namespace Method

variable {ρ : Type} [RandomSource ρ] {s s' : Session σ (Method ρ α) α} {o : Outcome}

/-- The method stores the cost at its point as it was found.  The others store the one that they
compare, which is large where there is none to be found. -/
def StoresCost : Method ρ α → Prop
  | .descent _ | .simplex _ | .leastSquares _ => True
  | .annealing _ | .evolution _ => False

theorem Tells.stored (h : Tells P s o s') : ∃ v, s'.progress.value = some v := by
  unfold Tells at h
  split at h
  · obtain ⟨-, i, r, hends, -⟩ := h
    exact hends.stored
  · obtain ⟨-, i, stops, hends, -⟩ := h
    exact hends.stored
  · obtain ⟨-, i, still, hends, -⟩ := h
    exact hends.stored
  · obtain ⟨-, k, hends, -⟩ := h
    exact hends.stored
  · obtain ⟨report, hends, -⟩ := h
    exact hends.stored
  · exact h.elim

theorem Tells.measured (evaluates : P.objective.Evaluates value gradient) (h : Tells P s o s')
    (hcost : s.memory.StoresCost) : s'.progress.Measured value := by
  unfold Tells at h
  split at h
  · obtain ⟨-, i, r, hends, -⟩ := h
    exact hends.measured evaluates
  · obtain ⟨-, i, stops, hends, -⟩ := h
    exact hends.measured evaluates.value
  · rename_i hmemory _
    rw [hmemory] at hcost
    exact hcost.elim
  · rename_i hmemory _
    rw [hmemory] at hcost
    exact hcost.elim
  · obtain ⟨report, hends, -⟩ := h
    exact hends.measured evaluates.value
  · exact h.elim

end Method

end Minima
