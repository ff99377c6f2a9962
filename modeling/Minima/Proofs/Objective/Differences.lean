import Minima.Proofs.Leads
import Minima.Proofs.Objective.Sweep

/-!
# Central differences

An evaluation that ignores the state amounts to its answer.  The central differences of functions
of the point are the difference quotients at the coordinates, one after the other.
-/

namespace Minima

/-! ## Evaluations that ignore the state -/

/-- The evaluation answers the same from all states. -/
def Settled {σ α β : Type} (e : Eval σ α β) (answer : Checked α β) : Prop :=
  ∀ o, (e o).1 = answer

section

variable {σ α β γ : Type} {e : Eval σ α β} {answer : Checked α β}

theorem settled_pure (b : β) : Settled (pure b : Eval σ α β) (pure b) := fun _ => rfl

theorem settled_attempt (answer : Checked α β) :
    Settled (attempt answer : Eval σ α β) answer := by
  intro o
  cases answer with
  | ok b => rfl
  | error failure => rfl

theorem Settled.bind {next : β → Eval σ α γ} {next' : β → Checked α γ} (h : Settled e answer)
    (hnext : ∀ b, Settled (next b) (next' b)) : Settled (e >>= next) (answer >>= next') := by
  intro o
  rw [bind_apply, ← h o]
  rcases e o with ⟨result, o'⟩
  cases result with
  | ok b => exact hnext b o'
  | error failure => rfl

theorem settled_mapM {f : β → Eval σ α γ} {g : β → Checked α γ} (h : ∀ b, Settled (f b) (g b))
    (inputs : List β) : Settled (inputs.mapM f) (inputs.mapM g) := by
  induction inputs with
  | nil => exact settled_pure []
  | cons b inputs ih =>
      rw [List.mapM_cons, List.mapM_cons]
      exact (h b).bind fun c => ih.bind fun made => settled_pure (c :: made)

/-! ## Answers one after the other -/

theorem mapM_eq_ok_iff {g : β → Checked α γ} {inputs : List β} {made : List γ} :
    inputs.mapM g = .ok made ↔ List.Forall₂ (fun b c => g b = .ok c) inputs made := by
  induction inputs generalizing made with
  | nil =>
      rw [List.mapM_nil, List.forall₂_nil_left_iff]
      exact ⟨fun h => by cases h; rfl, fun h => by rw [h]; rfl⟩
  | cons b inputs ih =>
      rw [List.mapM_cons, List.forall₂_cons_left_iff]
      constructor
      · intro h
        cases hb : g b with
        | error failure =>
            rw [hb] at h
            contradiction
        | ok c =>
            cases hrest : inputs.mapM g with
            | error failure =>
                rw [hb, hrest] at h
                contradiction
            | ok rest =>
                rw [hb, hrest] at h
                cases h
                exact ⟨c, rest, rfl, ih.mp hrest, rfl⟩
      · rintro ⟨c, rest, hb, hrest, rfl⟩
        rw [hb, ih.mpr hrest]
        rfl

theorem mapM_congr_forall₂ {δ : Type} {g : β → Checked α γ} {g' : δ → Checked α γ}
    {inputs : List β} {inputs' : List δ}
    (h : List.Forall₂ (fun b d => g b = g' d) inputs inputs') :
    inputs.mapM g = inputs'.mapM g' := by
  induction h with
  | nil => rfl
  | cons hbd _ ih => rw [List.mapM_cons, List.mapM_cons, hbd, ih]

end

/-! ## Central differences -/

theorem DenseMatrix.ofColumns_cons_eq_ok_iff {α : Type} {first : Vec α} {rest : List (Vec α)}
    {a : DenseMatrix α} :
    ofColumns first.length (first :: rest) = .ok a ↔
      a.columns = first :: rest ∧ ∀ column ∈ a.columns, column.length = a.rows := by
  unfold ofColumns
  split
  · rename_i hall
    constructor
    · intro h
      cases h
      exact ⟨rfl, fun column hcolumn => beq_iff_eq.mp (List.all_eq_true.mp hall column hcolumn)⟩
    · rintro ⟨hcolumns, hlength⟩
      rw [hcolumns] at hlength
      have hrows : first.length = a.rows := hlength first List.mem_cons_self
      rw [hrows, ← hcolumns]
  · rename_i hall
    refine ⟨fun h => by contradiction, ?_⟩
    rintro ⟨hcolumns, hlength⟩
    rw [hcolumns] at hlength
    refine (hall (List.all_eq_true.mpr fun column hcolumn => beq_iff_eq.mpr ?_)).elim
    rw [hlength column hcolumn, hlength first List.mem_cons_self]

namespace Objective

variable {σ α β γ : Type} [Scalar α]

theorem settled_sweep {ask : Vec α → Eval σ α β} {answer : Vec α → Checked α β}
    (hask : ∀ x, Settled (ask x) (answer x)) (quotient : β → β → Checked α γ) (h : α) (x : Vec α)
    (is : List Nat) :
    Settled (sweep (turn ask quotient h x) is x) (is.mapM (twoSided quotient answer h x)) := by
  rw [sweep_turn]
  exact settled_mapM (fun _ => (hask _).bind fun _ => (hask _).bind fun _ => settled_attempt _) is

theorem settled_centralGradient {ask : Vec α → Eval σ α α} {value : Vec α → Checked α α}
    (hask : ∀ x, Settled (ask x) (value x)) (h : α) (x : Vec α) :
    Settled (centralGradient ask h x)
      ((List.range x.length).mapM (twoSided (slope h) value h x)) :=
  settled_sweep hask (slope h) h x _

theorem centralJacobian_eq_ok_iff {ask : Vec α → Eval σ α (Vec α)}
    {values : Vec α → Checked α (Vec α)} (hask : ∀ x, Settled (ask x) (values x)) {h : α}
    {x : Vec α} (hx : 0 < x.length) {o : σ} {jacobian : DenseMatrix α} :
    (centralJacobian ask h x o).1 = .ok jacobian ↔
      (List.range x.length).mapM (twoSided (slopes h) values h x) = .ok jacobian.columns ∧
        ∀ column ∈ jacobian.columns, column.length = jacobian.rows := by
  have hcolumns := settled_sweep hask (slopes h) h x (List.range x.length) o
  unfold centralJacobian
  rw [bind_apply]
  rcases hrun : sweep (turn ask (slopes h) h x) (List.range x.length) x o with ⟨answer, o'⟩
  rw [hrun] at hcolumns
  rw [← hcolumns]
  cases answer with
  | error failure => exact ⟨fun h => by contradiction, fun h => by cases h.1⟩
  | ok columns =>
      have hlength := (mapM_eq_ok_iff.mp hcolumns.symm).length_eq
      rw [List.length_range] at hlength
      obtain ⟨first, rest, rfl⟩ := List.exists_cons_of_length_pos (hlength ▸ hx)
      have hjoin := settled_attempt (σ := σ) (DenseMatrix.ofColumns first.length (first :: rest)) o'
      refine (Iff.of_eq (congrArg (· = Except.ok jacobian) hjoin)).trans ?_
      rw [DenseMatrix.ofColumns_cons_eq_ok_iff, Except.ok.injEq, eq_comm]

end Objective

end Minima
