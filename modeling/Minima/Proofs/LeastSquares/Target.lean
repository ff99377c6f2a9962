import Minima.Proofs.LeastSquares.Sweep

/-!
# Targets that answer for a point

The residuals of such a target depend on its parameters alone, and nothing but
`setParams` moves it.  Differences move it on the way and back at the end.
-/

namespace Minima.Target

variable {τ α : Type}

structure At (t : Target τ α) (valid : τ → Prop) (x : Vec α) (s : τ) : Prop where
  valid : valid s
  params : t.params s = x

/-- In the states `valid`, which no call leaves, the residuals are a function of the
parameters.  Nothing is asked of the entries of the Jacobian. -/
structure Answers (t : Target τ α) (valid : τ → Prop) (residuals : Vec α → Option (Vec α)) :
    Prop where
  setParams {s : τ} (x : Vec α) : valid s → t.At valid x (t.setParams x s).2
  residuals {x : Vec α} {s : τ} : t.At valid x s →
    (t.residuals s).1 = residuals x ∧ t.At valid x (t.residuals s).2
  jacobian {x : Vec α} {s : τ} : t.At valid x s → t.At valid x (t.jacobian s).2

theorem ofFunctions_answers (residuals : Vec α → Option (Vec α))
    (jacobian : Vec α → Option (DenseMatrix α)) :
    (ofFunctions residuals jacobian).Answers (fun _ => True) residuals where
  setParams x _ := ⟨trivial, rfl⟩
  residuals h := by
    rcases h with ⟨-, rfl⟩
    exact ⟨rfl, trivial, rfl⟩
  jacobian h := h

/-! ## Forward differences -/

def Keeps {β : Type} (P : τ → Prop) (act : StateM τ β) : Prop := ∀ s, P s → P (act s).2

theorem keeps_pure {β : Type} {P : τ → Prop} (b : β) : Keeps P (pure b : StateM τ β) :=
  fun _ h => h

theorem Keeps.bind {β γ : Type} {P : τ → Prop} {first : StateM τ β} {next : β → StateM τ γ}
    (hfirst : Keeps P first) (hnext : ∀ b, Keeps P (next b)) : Keeps P (first >>= next) := by
  intro s hs
  exact hnext _ _ (hfirst s hs)

theorem keeps_columns {P : τ → Prop} {column : Nat → StateM τ (Option (Vec α))}
    (hcolumn : ∀ j, Keeps P (column j)) (js : List Nat) : Keeps P (columns column js) := by
  induction js with
  | nil => exact keeps_pure _
  | cons j js ih =>
      refine (hcolumn j).bind fun answer => ?_
      cases answer with
      | none => exact keeps_pure _
      | some c =>
          refine ih.bind fun found => ?_
          cases found with
          | none => exact keeps_pure _
          | some cs => exact keeps_pure _

variable {t : Target τ α} {valid : τ → Prop} {residuals : Vec α → Option (Vec α)}

theorem Answers.keeps_setParams (answers : t.Answers valid residuals) (x : Vec α) :
    Keeps valid (t.setParams x) := fun _ hs => (answers.setParams x hs).valid

theorem Answers.keeps_residuals (answers : t.Answers valid residuals) :
    Keeps valid t.residuals := fun _ hs => (answers.residuals ⟨hs, rfl⟩).2.valid

variable [Scalar α]

theorem Answers.keeps_forwardColumn (answers : t.Answers valid residuals) (x r : Vec α)
    (epsfcn : α) (j : Nat) : Keeps valid (t.forwardColumn x r epsfcn j) :=
  Keeps.bind ((answers.keeps_setParams _).bind fun _ => answers.keeps_residuals) fun _ =>
    keeps_pure _

theorem Answers.forwardJacobian (answers : t.Answers valid residuals) (x r : Vec α) (epsfcn : α)
    {s : τ} (hs : valid s) : t.At valid x (t.forwardJacobian x r epsfcn s).2 := by
  have hcolumns :=
    keeps_columns (answers.keeps_forwardColumn x r epsfcn) (List.range x.length) s hs
  rw [forwardJacobian_eq]
  exact answers.setParams x hcolumns

end Minima.Target
