import Minima.Proofs.LeastSquares.Target
import Minima.Proofs.Objective.Exact

/-!
# Exact differences of a target

The Jacobians by differences of a target that answers for a point are difference quotients of its
residuals, one column after the other.  Their steps are never zero in exact arithmetic, so that
they are the derivatives of quadratic residuals, or of affine ones where only one end is compared
with the point itself.
-/

namespace Minima

theorem getElem?_mapM_eq_some {β γ : Type} {g : β → Option γ} {inputs : List β} {made : List γ}
    (h : inputs.mapM g = some made) (j : Nat) : made[j]? = inputs[j]?.bind g := by
  induction inputs generalizing made j with
  | nil =>
      obtain rfl : [] = made := Option.some.inj h
      rfl
  | cons b inputs ih =>
      rw [List.mapM_cons] at h
      obtain ⟨c, hc, h⟩ := Option.bind_eq_some_iff.mp h
      obtain ⟨rest, hrest, h⟩ := Option.bind_eq_some_iff.mp h
      obtain rfl : c :: rest = made := Option.some.inj h
      cases j with
      | zero => exact hc.symm
      | succ j => exact ih hrest j

namespace Target

section

variable {τ α β γ : Type} {P : τ → Prop}

/-- From all states in `P` the action gives the same answer, and it stays there. -/
def Replies (P : τ → Prop) (act : StateM τ β) (answer : β) : Prop :=
  ∀ s, P s → (act s).1 = answer ∧ P (act s).2

theorem replies_pure (b : β) : Replies P (pure b : StateM τ β) b := fun _ h => ⟨rfl, h⟩

theorem Replies.bind {first : StateM τ β} {next : β → StateM τ γ} {b : β} {c : γ}
    (hfirst : Replies P first b) (hnext : Replies P (next b) c) :
    Replies P (first >>= next) c := by
  intro s hs
  obtain ⟨rfl, hs'⟩ := hfirst s hs
  exact hnext _ hs'

theorem replies_columns {column : Nat → StateM τ (Option (Vec α))} {answer : Nat → Option (Vec α)}
    (h : ∀ j, Replies P (column j) (answer j)) (js : List Nat) :
    Replies P (columns column js) (js.mapM answer) := by
  induction js with
  | nil => exact replies_pure _
  | cons j js ih =>
      rw [List.mapM_cons]
      refine (h j).bind ?_
      cases answer j with
      | none => exact replies_pure _
      | some c =>
          refine ih.bind ?_
          cases js.mapM answer with
          | none => exact replies_pure _
          | some cs => exact replies_pure _

variable {t : Target τ α} {valid : τ → Prop} {residuals : Vec α → Option (Vec α)}

theorem Answers.replies_setParams (answers : t.Answers valid residuals) (x : Vec α) :
    Replies valid (t.setParams x) () := fun _ hs => ⟨rfl, (answers.setParams x hs).valid⟩

theorem Answers.replies_residualsAt (answers : t.Answers valid residuals) (x : Vec α) :
    Replies valid (t.residualsAt x) (residuals x) := by
  intro s hs
  obtain ⟨hanswer, hat⟩ := answers.residuals (answers.setParams x hs)
  exact ⟨hanswer, hat.valid⟩

end

/-! ## Difference quotients -/

section

variable {τ α : Type} [Scalar α]

def forwardQuotient (residuals : Vec α → Option (Vec α)) (x r : Vec α) (epsfcn : α) (j : Nat) :
    Option (Vec α) :=
  let h := forwardStep epsfcn (x.getD j 0)
  quotients h (residuals (x.modify j (· + h))) (some r)

def centralQuotient (residuals : Vec α → Option (Vec α)) (x : Vec α) (j : Nat) :
    Option (Vec α) :=
  let h := centralStep (x.getD j 0)
  quotients (2.0 * h) (residuals (x.modify j (· + h))) (residuals (x.modify j (· - h)))

variable {t : Target τ α} {valid : τ → Prop} {residuals : Vec α → Option (Vec α)}

theorem Answers.replies_forwardColumn (answers : t.Answers valid residuals) (x r : Vec α)
    (epsfcn : α) (j : Nat) :
    Replies valid (t.forwardColumn x r epsfcn j) (forwardQuotient residuals x r epsfcn j) :=
  (answers.replies_residualsAt _).bind (replies_pure _)

theorem Answers.replies_centralColumn (answers : t.Answers valid residuals) (x : Vec α) (j : Nat) :
    Replies valid (t.centralColumn x j) (centralQuotient residuals x j) :=
  (answers.replies_residualsAt _).bind ((answers.replies_residualsAt _).bind (replies_pure _))

theorem Answers.replies_forwardJacobian (answers : t.Answers valid residuals) (x r : Vec α)
    (epsfcn : α) :
    Replies valid (t.forwardJacobian x r epsfcn)
      (((List.range x.length).mapM (forwardQuotient residuals x r epsfcn)).map
        (DenseMatrix.mk r.length)) := by
  rw [Target.forwardJacobian_eq]
  exact (replies_columns (answers.replies_forwardColumn x r epsfcn) _).bind
    ((answers.replies_setParams x).bind (replies_pure _))

theorem Answers.replies_centralJacobian (answers : t.Answers valid residuals) (x : Vec α) :
    Replies valid (t.centralJacobian x)
      (match (List.range x.length).mapM (centralQuotient residuals x) with
      | some (first :: rest) => some <$> DenseMatrix.ofColumns first.length (first :: rest)
      | _ => .ok none) := by
  rw [Target.centralJacobian_eq]
  refine (replies_columns (answers.replies_centralColumn x) _).bind
    ((answers.replies_setParams x).bind ?_)
  rcases (List.range x.length).mapM (centralQuotient residuals x) with _ | _ | ⟨first, rest⟩
  · exact replies_pure _
  · exact replies_pure _
  · exact replies_pure _

end

/-! ## Quadratic and affine residuals -/

section

open Quadratic

variable {m n : Nat} {residuals residuals' : Vec ℝ → Option (Vec ℝ)} {r : Fin m → Quadratic n}

theorem forwardStep_ne_zero (epsfcn a : ℝ) : forwardStep epsfcn a ≠ 0 := by
  have hepsilon : (0 : ℝ) < Scalar.epsilon := inv_pos.mpr (by positivity)
  have hroot : 0 < √(max epsfcn Scalar.epsilon) :=
    Real.sqrt_pos.mpr (lt_max_of_lt_right hepsilon)
  unfold forwardStep
  simp only [Scalar.isZero_real, Scalar.sqrt_real, Scalar.max_real, decide_eq_true_eq]
  split
  · exact hroot.ne'
  · assumption

theorem centralStep_ne_zero (a : ℝ) : centralStep a ≠ 0 := by
  have hepsilon : (0 : ℝ) < Scalar.epsilon := inv_pos.mpr (by positivity)
  have hcbrt : 0 < Scalar.cbrt (Scalar.epsilon : ℝ) := by
    change 0 < (SignType.sign (Scalar.epsilon : ℝ) : ℝ) * |(Scalar.epsilon : ℝ)| ^ ((3 : ℕ) : ℝ)⁻¹
    rw [sign_pos hepsilon, abs_of_pos hepsilon]
    exact mul_pos one_pos (Real.rpow_pos_of_pos hepsilon _)
  rw [centralStep, Scalar.max_real]
  exact (mul_pos hcbrt (lt_max_of_lt_left one_pos)).ne'

theorem forwardQuotient_affine (haffine : ∀ i, (r i).IsAffine)
    (hresiduals : ∀ w, residuals (List.ofFn w) = some (List.ofFn (evals r w))) (u : Fin n → ℝ)
    (epsfcn : ℝ) (j : Fin n) :
    forwardQuotient residuals (List.ofFn u) (List.ofFn (evals r u)) epsfcn j =
      some (List.ofFn fun i => partials r u i j) := by
  have hstep := forwardStep_ne_zero epsfcn ((List.ofFn u).getD j 0)
  unfold forwardQuotient quotients
  generalize forwardStep epsfcn ((List.ofFn u).getD j 0) = h at hstep ⊢
  have hquotient (i : Fin m) :
      (evals r (Function.update u j (u j + h)) i - evals r u i) / h = partials r u i j := by
    rw [evals, evals, (haffine i).eval_update_sub, mul_div_cancel_right₀ _ hstep]
    rfl
  simp only [modify_ofFn, hresiduals, List.length_ofFn, if_true, Vec.sub_ofFn, Vec.divide_ofFn,
    Pi.sub_apply, hquotient]

theorem centralQuotient_quadratic
    (hresiduals : ∀ w, residuals (List.ofFn w) = some (List.ofFn (evals r w))) (u : Fin n → ℝ)
    (j : Fin n) :
    centralQuotient residuals (List.ofFn u) j =
      some (List.ofFn fun i => partials r u i j) := by
  have hstep := centralStep_ne_zero ((List.ofFn u).getD j 0)
  unfold centralQuotient quotients
  generalize centralStep ((List.ofFn u).getD j 0) = h at hstep ⊢
  have hquotient (i : Fin m) :
      (evals r (Function.update u j (u j + h)) i - evals r (Function.update u j (u j - h)) i) /
        (2.0 * h) = partials r u i j := by
    have htwice : (2.0 : ℝ) * h = 2 * h := by norm_num
    rw [evals, evals, eval_update_add_sub, htwice,
      mul_div_cancel_right₀ _ (mul_ne_zero two_ne_zero hstep)]
    rfl
  simp only [modify_ofFn, hresiduals, List.length_ofFn, if_true, Vec.sub_ofFn, Vec.divide_ofFn,
    Pi.sub_apply, hquotient]

variable {τ τ' : Type} {t : Target τ ℝ} {t' : Target τ' ℝ} {valid : τ → Prop} {valid' : τ' → Prop}
  {s : τ} {s' : τ'}

theorem Answers.forwardJacobian_affine (answers : t.Answers valid residuals) (hs : valid s)
    (haffine : ∀ i, (r i).IsAffine)
    (hresiduals : ∀ w, residuals (List.ofFn w) = some (List.ofFn (evals r w))) (u : Fin n → ℝ)
    (epsfcn : ℝ) :
    (t.forwardJacobian (List.ofFn u) (List.ofFn (evals r u)) epsfcn s).1 =
      some (.ofMatrix (partials r u)) := by
  rw [(answers.replies_forwardJacobian _ _ _ s hs).1, List.length_ofFn, List.length_ofFn,
    mapM_range_eq_pure (forwardQuotient_affine haffine hresiduals u epsfcn)]
  rfl

theorem Answers.centralJacobian_quadratic (answers : t.Answers valid residuals) (hs : valid s)
    (hresiduals : ∀ w, residuals (List.ofFn w) = some (List.ofFn (evals r w))) (u : Fin n → ℝ) :
    (t.centralJacobian (List.ofFn u) s).1 =
      .ok (if n = 0 then none else some (.ofMatrix (partials r u))) := by
  rw [(answers.replies_centralJacobian _ s hs).1, List.length_ofFn,
    mapM_range_eq_pure (centralQuotient_quadratic hresiduals u)]
  cases n with
  | zero => rfl
  | succ n =>
      have hmatrix := (DenseMatrix.ofColumns_cons_eq_ok_iff (a := .ofMatrix (partials r u))).mpr
        ⟨List.ofFn_succ, fun column hcolumn => ?_⟩
      · rw [if_neg n.succ_ne_zero, List.ofFn_succ]
        exact congrArg (some <$> ·) hmatrix
      · obtain ⟨j, rfl⟩ := List.mem_ofFn.mp hcolumn
        exact List.length_ofFn

theorem forwardQuotient_congr {x w : Vec ℝ} {j : Nat} (hj : j < x.length)
    (hagree : AgreeAlong x j residuals residuals') (epsfcn : ℝ) :
    forwardQuotient residuals x w epsfcn j = forwardQuotient residuals' x w epsfcn j := by
  rw [forwardQuotient, forwardQuotient, hagree.modify hj]

theorem centralQuotient_congr {x : Vec ℝ} {j : Nat} (hj : j < x.length)
    (hagree : AgreeAlong x j residuals residuals') :
    centralQuotient residuals x j = centralQuotient residuals' x j := by
  rw [centralQuotient, centralQuotient, hagree.modify hj, hagree.modify hj]

theorem Answers.forwardJacobian_local (answers : t.Answers valid residuals) (hs : valid s)
    (answers' : t'.Answers valid' residuals') (hs' : valid' s') {x w : Vec ℝ} {epsfcn : ℝ} {j : Nat}
    (hj : j < x.length) (hagree : AgreeAlong x j residuals residuals') {A A' : DenseMatrix ℝ}
    (hA : (t.forwardJacobian x w epsfcn s).1 = some A)
    (hA' : (t'.forwardJacobian x w epsfcn s').1 = some A') : A.columns[j]? = A'.columns[j]? := by
  rw [(answers.replies_forwardJacobian x w epsfcn s hs).1] at hA
  rw [(answers'.replies_forwardJacobian x w epsfcn s' hs').1] at hA'
  obtain ⟨columns, hcolumns, rfl⟩ := Option.map_eq_some_iff.mp hA
  obtain ⟨columns', hcolumns', rfl⟩ := Option.map_eq_some_iff.mp hA'
  change columns[j]? = columns'[j]?
  rw [getElem?_mapM_eq_some hcolumns, getElem?_mapM_eq_some hcolumns', List.getElem?_range hj]
  exact forwardQuotient_congr hj hagree epsfcn

theorem Answers.centralJacobian_eq_some (answers : t.Answers valid residuals) (hs : valid s)
    {x : Vec ℝ} {A : DenseMatrix ℝ} (hA : (t.centralJacobian x s).1 = .ok (some A)) :
    (List.range x.length).mapM (centralQuotient residuals x) = some A.columns := by
  rw [(answers.replies_centralJacobian x s hs).1] at hA
  split at hA
  · rename_i first rest hcolumns
    cases hjoin : DenseMatrix.ofColumns first.length (first :: rest) with
    | error failure =>
        rw [hjoin] at hA
        contradiction
    | ok joined =>
        rw [hjoin] at hA
        cases hA
        rw [hcolumns, (DenseMatrix.ofColumns_cons_eq_ok_iff.mp hjoin).1]
  · cases Except.ok.inj hA

theorem Answers.centralJacobian_local (answers : t.Answers valid residuals) (hs : valid s)
    (answers' : t'.Answers valid' residuals') (hs' : valid' s') {x : Vec ℝ} {j : Nat}
    (hj : j < x.length) (hagree : AgreeAlong x j residuals residuals') {A A' : DenseMatrix ℝ}
    (hA : (t.centralJacobian x s).1 = .ok (some A))
    (hA' : (t'.centralJacobian x s').1 = .ok (some A')) : A.columns[j]? = A'.columns[j]? := by
  rw [getElem?_mapM_eq_some (answers.centralJacobian_eq_some hs hA),
    getElem?_mapM_eq_some (answers'.centralJacobian_eq_some hs' hA'), List.getElem?_range hj]
  exact centralQuotient_congr hj hagree

end

end Target

/-! ## Objectives and targets -/

open Quadratic

section

variable {σ σ' τ τ' : Type} {n : Nat} {f : Objective σ ℝ} {f' : Objective σ' ℝ}
  {value value' : Vec ℝ → Checked ℝ ℝ} {values values' : Vec ℝ → Checked ℝ (Vec ℝ)}
  {t : Target τ ℝ} {t' : Target τ' ℝ} {valid : τ → Prop} {valid' : τ' → Prop}
  {residuals residuals' : Vec ℝ → Option (Vec ℝ)}

/-- Differences are the derivatives of quadratic functions, and forward differences those of
affine ones, except that a target without parameters has no central differences.  Another
objective and another target, which agree with the first ones along a coordinate, have the same
derivatives there. -/
theorem differences_exact (hf : f.ByDifferences value values) (hstep : f.step ≠ 0)
    (ht : t.Answers valid residuals) (hf' : f'.ByDifferences value' values')
    (hstep' : f'.step = f.step) (ht' : t'.Answers valid' residuals') (u : Fin n → ℝ) (epsfcn : ℝ)
    (o : σ) (o' : σ') (s : τ) (s' : τ') (hs : valid s) (hs' : valid' s') :
    (∀ q : Quadratic n, (∀ w, value (List.ofFn w) = .ok (q.eval w)) →
      ∃ g, IsGradient q.eval u g ∧ (f.gradient (List.ofFn u) o).1 = .ok (List.ofFn g)) ∧
    (∀ (m : Nat) (r : Fin m → Quadratic n),
      (∀ w, values (List.ofFn w) = .ok (List.ofFn (evals r w))) →
      ∃ J, IsJacobian (evals r) u J ∧ (f.jacobian (List.ofFn u) o).1 = .ok (.ofMatrix J)) ∧
    (∀ (m : Nat) (r : Fin m → Quadratic n),
      (∀ w, residuals (List.ofFn w) = some (List.ofFn (evals r w))) →
      ∃ J, IsJacobian (evals r) u J ∧
        (t.centralJacobian (List.ofFn u) s).1 = .ok (if n = 0 then none else some (.ofMatrix J)) ∧
        ((∀ i, (r i).IsAffine) →
          (t.forwardJacobian (List.ofFn u) (List.ofFn (evals r u)) epsfcn s).1 =
            some (.ofMatrix J))) ∧
    ∀ j < n,
      (AgreeAlong (List.ofFn u) j value value' → ∀ g g',
        (f.gradient (List.ofFn u) o).1 = .ok g → (f'.gradient (List.ofFn u) o').1 = .ok g' →
          g[j]? = g'[j]?) ∧
      (AgreeAlong (List.ofFn u) j values values' → ∀ A A',
        (f.jacobian (List.ofFn u) o).1 = .ok A → (f'.jacobian (List.ofFn u) o').1 = .ok A' →
          A.columns[j]? = A'.columns[j]?) ∧
      (AgreeAlong (List.ofFn u) j residuals residuals' → ∀ A A',
        ((t.centralJacobian (List.ofFn u) s).1 = .ok (some A) →
          (t'.centralJacobian (List.ofFn u) s').1 = .ok (some A') →
            A.columns[j]? = A'.columns[j]?) ∧
        ∀ r, (t.forwardJacobian (List.ofFn u) r epsfcn s).1 = some A →
          (t'.forwardJacobian (List.ofFn u) r epsfcn s').1 = some A' →
            A.columns[j]? = A'.columns[j]?) := by
  refine ⟨fun q hvalue => ?_, fun m r hvalues => ?_, fun m r hresiduals => ?_, fun j hj => ?_⟩
  · exact ⟨_, q.isGradient_gradient u, hf.gradient_quadratic hstep hvalue u o⟩
  · exact ⟨_, isJacobian_partials r u, hf.jacobian_quadratic hstep hvalues u o⟩
  · exact ⟨_, isJacobian_partials r u, ht.centralJacobian_quadratic hs hresiduals u,
      fun haffine => ht.forwardJacobian_affine hs haffine hresiduals u epsfcn⟩
  · have hlength : j < (List.ofFn u).length := List.length_ofFn.symm ▸ hj
    refine ⟨fun hagree g g' => ?_, fun hagree A A' => ?_, fun hagree A A' => ⟨?_, fun r => ?_⟩⟩
    · exact hf.gradient_local hf' hstep' hlength hagree
    · exact hf.jacobian_local hf' hstep' hlength hagree
    · exact ht.centralJacobian_local hs ht' hs' hlength hagree
    · exact ht.forwardJacobian_local hs ht' hs' hlength hagree

end

/-! ## A product and a plane -/

namespace Quadratic

variable {m n : Nat}

noncomputable def objective (q : Quadratic n) (r : Fin m → Quadratic n) : Objective Unit ℝ :=
  .ofParts (fun x => pure (q.eval (Vec.toFn n x)))
    (some fun x => pure (List.ofFn (evals r (Vec.toFn n x)))) none none 1

theorem objective_byDifferences (q : Quadratic n) (r : Fin m → Quadratic n) :
    (q.objective r).ByDifferences (fun x => .ok (q.eval (Vec.toFn n x)))
      (fun x => .ok (List.ofFn (evals r (Vec.toFn n x)))) where
  answers := ⟨fun _ _ => rfl, fun _ _ => rfl⟩
  gradient_eq := rfl
  jacobian_eq := rfl

noncomputable def target (r : Fin m → Quadratic n) : Target (Vec ℝ) ℝ :=
  .ofFunctions (fun x => some (List.ofFn (evals r (Vec.toFn n x)))) fun _ => none

theorem target_answers (r : Fin m → Quadratic n) :
    (target r).Answers (fun _ => True)
      (fun x => some (List.ofFn (evals r (Vec.toFn n x)))) :=
  Target.ofFunctions_answers _ _

def product : Quadratic 2 := ⟨0, 0, !![0, 1; 0, 0]⟩

def plane : Quadratic 2 := ⟨1, ![1, -1], 0⟩

theorem ofMatrix_partials (q : Quadratic 2) (u : Fin 2 → ℝ) :
    DenseMatrix.ofMatrix (partials ![q] u) = ⟨1, [[q.gradient u 0], [q.gradient u 1]]⟩ := rfl

theorem gradient_product : product.gradient ![2, 1] = ![1, 2] := by
  have hentry (i : Fin 2) : product.gradient ![2, 1] i =
      0 + ∑ j, (product.square i j + product.square j i) * ![2, 1] j := rfl
  funext i
  rw [hentry, Fin.sum_univ_two]
  fin_cases i <;> simp [product]

theorem gradient_plane : plane.gradient ![2, 1] = ![1, -1] := by
  funext i
  fin_cases i <;> simp [gradient, plane]

theorem eval_plane : plane.eval ![2, 1] = 2 := by
  simp [eval, plane]

end Quadratic

theorem differences_exact_product :
    (product.objective ![product]).step ≠ 0 ∧ (∀ i, (![plane] i).IsAffine) ∧
      ((product.objective ![product]).gradient [2, 1] ()).1 = .ok [1, 2] ∧
      ((product.objective ![product]).jacobian [2, 1] ()).1 = .ok ⟨1, [[1], [2]]⟩ ∧
      ((target ![plane]).centralJacobian [2, 1] []).1 = .ok (some ⟨1, [[1], [-1]]⟩) ∧
      ((target ![plane]).forwardJacobian [2, 1] [2] 0 []).1 = some ⟨1, [[1], [-1]]⟩ := by
  have hstep : (product.objective ![product]).step ≠ 0 := one_ne_zero
  have haffine : ∀ i, (![plane] i).IsAffine := by
    intro i
    rw [Subsingleton.elim i 0]
    rfl
  obtain ⟨hgradient, hjacobian, htarget, -⟩ :=
    differences_exact (objective_byDifferences product ![product]) hstep (target_answers ![plane])
      (objective_byDifferences product ![product]) rfl (target_answers ![plane]) ![2, 1] 0 () () []
      [] trivial trivial
  obtain ⟨g, hg, hanswer⟩ := hgradient product fun w => by rw [Vec.toFn_ofFn]
  obtain ⟨J, hJ, hcomponents⟩ := hjacobian 1 ![product] fun w => by rw [Vec.toFn_ofFn]
  obtain ⟨K, hK, hcentral, hforward⟩ := htarget 1 ![plane] fun w => by rw [Vec.toFn_ofFn]
  obtain rfl := hg.unique (product.isGradient_gradient ![2, 1])
  obtain rfl := hJ.unique (isJacobian_partials ![product] ![2, 1])
  obtain rfl := hK.unique (isJacobian_partials ![plane] ![2, 1])
  have hforward := hforward haffine
  have hvalue : List.ofFn (evals ![plane] ![2, 1]) = [2] := congrArg ([·]) eval_plane
  rw [gradient_product] at hanswer
  rw [ofMatrix_partials, gradient_product] at hcomponents
  rw [ofMatrix_partials, gradient_plane] at hcentral hforward
  rw [hvalue] at hforward
  exact ⟨hstep, haffine, hanswer, hcomponents, hcentral, hforward⟩

theorem centralJacobian_without_parameters :
    IsJacobian (evals ![⟨1, 0, 0⟩]) ![] (partials ![⟨1, 0, 0⟩] ![]) ∧
      ∀ J : Matrix (Fin 1) (Fin 0) ℝ,
        ((target (n := 0) ![⟨1, 0, 0⟩]).centralJacobian [] []).1 ≠ .ok (some (.ofMatrix J)) := by
  refine ⟨isJacobian_partials _ _, fun J h => ?_⟩
  have hnone : ((target (n := 0) ![⟨1, 0, 0⟩]).centralJacobian [] []).1 = .ok none := rfl
  rw [hnone] at h
  cases h

end Minima
