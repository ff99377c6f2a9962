import Minima.Proofs.Quadratic
import Minima.Proofs.Objective
import Minima.Proofs.Objective.Differences

/-!
# Exact differences

In exact arithmetic the central differences of an objective do not depend on their step where they
are taken of quadratic functions, and are the derivatives.  Whatever the function is, an entry of a
gradient and a column of a Jacobian depend on the points along one coordinate alone.
-/

namespace Minima

/-! ## One coordinate after the other -/

/-- The functions agree at the points that differ from `x` in the coordinate `j` alone. -/
def AgreeAlong {α β : Type} (x : Vec α) (j : Nat) (first second : Vec α → β) : Prop :=
  ∀ a, first (x.set j a) = second (x.set j a)

theorem AgreeAlong.modify {α β : Type} {x : Vec α} {j : Nat} {first second : Vec α → β}
    (h : AgreeAlong x j first second) (hj : j < x.length) (f : α → α) :
    first (x.modify j f) = second (x.modify j f) := by
  have hset : x.modify j f = x.set j (f x[j]) := by
    rw [List.modify_eq_set_getElem?, List.getElem?_eq_getElem hj]
    rfl
  rw [hset]
  exact h (f x[j])

theorem mapM_range_eq_pure {M : Type → Type} [Monad M] [LawfulMonad M] {γ : Type} {n : Nat}
    {g : Nat → M γ} {c : Fin n → γ} (h : ∀ j : Fin n, g j = pure (c j)) :
    (List.range n).mapM g = pure (List.ofFn c) := by
  rw [← List.map_coe_finRange_eq_range, List.mapM_map, List.ofFn_eq_map, ← List.mapM_pure]
  exact congrArg (fun g => List.mapM g (List.finRange n)) (funext h)

theorem getElem?_mapM_range {γ : Type} {g g' : Nat → Checked ℝ γ} {n j : Nat} {made made' : List γ}
    (h : (List.range n).mapM g = .ok made) (h' : (List.range n).mapM g' = .ok made') (hj : j < n)
    (hsame : g j = g' j) : made[j]? = made'[j]? := by
  have hmade := mapM_eq_ok_iff.mp h
  have hmade' := mapM_eq_ok_iff.mp h'
  have hrange : j < (List.range n).length := List.length_range.symm ▸ hj
  have hlt : j < made.length := hmade.length_eq ▸ hrange
  have hlt' : j < made'.length := hmade'.length_eq ▸ hrange
  have hfirst := hmade.get hrange hlt
  have hsecond := hmade'.get hrange hlt'
  rw [List.get_eq_getElem, List.getElem_range] at hfirst hsecond
  rw [List.getElem?_eq_getElem hlt, List.getElem?_eq_getElem hlt']
  exact congrArg some (Except.ok.inj (hfirst.symm.trans (hsame.trans hsecond)))

namespace Objective

open Quadratic

/-- The costs and the components are functions of the point, and the derivatives are found by
differences. -/
structure ByDifferences {σ α : Type} [Scalar α] (f : Objective σ α) (value : Vec α → Checked α α)
    (values : Vec α → Checked α (Vec α)) : Prop where
  answers : f.Answers value values
  gradient_eq : f.gradient = centralGradient f.value f.step
  jacobian_eq : f.jacobian = centralJacobian f.values f.step

variable {σ σ' : Type} {m n : Nat} {f : Objective σ ℝ} {f' : Objective σ' ℝ}
  {value value' : Vec ℝ → Checked ℝ ℝ} {values values' : Vec ℝ → Checked ℝ (Vec ℝ)} {h : ℝ}

/-! ## Quadratic functions -/

theorem half_quotient {g h : ℝ} (hh : h ≠ 0) : 0.5 * (g * (2 * h)) / h = g := by
  rw [div_eq_iff hh]
  ring

theorem twoSided_slope {q : Quadratic n} (hvalue : ∀ w, value (List.ofFn w) = .ok (q.eval w))
    (hh : h ≠ 0) (u : Fin n → ℝ) (j : Fin n) :
    twoSided (slope h) value h (List.ofFn u) j = .ok (q.gradient u j) := by
  rw [twoSided, modify_ofFn, modify_ofFn, hvalue, hvalue]
  change Except.ok (0.5 * (_ - _) / h) = _
  rw [eval_update_add_sub, half_quotient hh]

theorem twoSided_slopes {r : Fin m → Quadratic n}
    (hvalues : ∀ w, values (List.ofFn w) = .ok (List.ofFn (evals r w))) (hh : h ≠ 0)
    (u : Fin n → ℝ) (j : Fin n) :
    twoSided (slopes h) values h (List.ofFn u) j =
      .ok (List.ofFn fun i => partials r u i j) := by
  have hsame (a b : Fin m → ℝ) :
      requireSame (List.ofFn a).length (List.ofFn b).length = (.ok () : Checked ℝ Unit) :=
    if_pos (by rw [List.length_ofFn, List.length_ofFn])
  have hquotient (i : Fin m) :
      0.5 / h * (evals r (Function.update u j (u j + h)) i -
        evals r (Function.update u j (u j - h)) i) = partials r u i j := by
    rw [evals, evals, eval_update_add_sub, div_mul_eq_mul_div, half_quotient hh]
    rfl
  rw [twoSided, modify_ofFn, modify_ofFn, hvalues, hvalues]
  change slopes h _ _ = _
  rw [slopes, hsame]
  change Except.ok (Vec.scale _ (Vec.sub _ _)) = _
  rw [Vec.sub_ofFn, Vec.scale_ofFn]
  exact congrArg (fun c => Except.ok (List.ofFn c)) (funext hquotient)

theorem ByDifferences.gradient_quadratic (hf : f.ByDifferences value values) (hstep : f.step ≠ 0)
    {q : Quadratic n} (hvalue : ∀ w, value (List.ofFn w) = .ok (q.eval w)) (u : Fin n → ℝ)
    (o : σ) : (f.gradient (List.ofFn u) o).1 = .ok (List.ofFn (q.gradient u)) := by
  rw [hf.gradient_eq, settled_centralGradient hf.answers.value, List.length_ofFn]
  exact mapM_range_eq_pure (twoSided_slope hvalue hstep u)

theorem settled_centralJacobian_nil {ask : Vec ℝ → Eval σ ℝ (Vec ℝ)}
    (hask : ∀ x, Settled (ask x) (values x)) :
    Settled (centralJacobian ask h []) (do return ⟨(← values []).length, []⟩) :=
  (hask []).bind fun _ => settled_pure _

theorem ByDifferences.jacobian_quadratic (hf : f.ByDifferences value values) (hstep : f.step ≠ 0)
    {r : Fin m → Quadratic n}
    (hvalues : ∀ w, values (List.ofFn w) = .ok (List.ofFn (evals r w))) (u : Fin n → ℝ) (o : σ) :
    (f.jacobian (List.ofFn u) o).1 = .ok (.ofMatrix (partials r u)) := by
  rw [hf.jacobian_eq]
  cases n with
  | zero =>
      have hnil := hvalues u
      rw [List.ofFn_zero] at hnil ⊢
      rw [settled_centralJacobian_nil hf.answers.values o, hnil]
      change Except.ok (DenseMatrix.mk _ _) = _
      rw [List.length_ofFn]
      rfl
  | succ n =>
      have hpos : 0 < (List.ofFn u).length := by rw [List.length_ofFn]; exact n.succ_pos
      refine (centralJacobian_eq_ok_iff hf.answers.values hpos).mpr ⟨?_, fun column hcolumn => ?_⟩
      · rw [List.length_ofFn]
        exact mapM_range_eq_pure (twoSided_slopes hvalues hstep u)
      · obtain ⟨j, rfl⟩ := List.mem_ofFn.mp hcolumn
        exact List.length_ofFn

/-! ## Points along one coordinate -/

theorem twoSided_congr {β γ : Type} {ask ask' : Vec ℝ → Checked ℝ β} {x : Vec ℝ} {j : Nat}
    (hagree : AgreeAlong x j ask ask') (hj : j < x.length) (join : β → β → Checked ℝ γ) :
    twoSided join ask h x j = twoSided join ask' h x j := by
  rw [twoSided, hagree.modify hj, hagree.modify hj]
  rfl

theorem ByDifferences.gradient_local (hf : f.ByDifferences value values)
    (hf' : f'.ByDifferences value' values') (hstep : f'.step = f.step) {x g g' : Vec ℝ} {j : Nat}
    (hj : j < x.length) (hagree : AgreeAlong x j value value') {o : σ} {o' : σ'}
    (hg : (f.gradient x o).1 = .ok g) (hg' : (f'.gradient x o').1 = .ok g') : g[j]? = g'[j]? := by
  rw [hf.gradient_eq, settled_centralGradient hf.answers.value] at hg
  rw [hf'.gradient_eq, settled_centralGradient hf'.answers.value, hstep] at hg'
  exact getElem?_mapM_range hg hg' hj (twoSided_congr hagree hj _)

theorem ByDifferences.jacobian_local (hf : f.ByDifferences value values)
    (hf' : f'.ByDifferences value' values') (hstep : f'.step = f.step) {x : Vec ℝ} {j : Nat}
    (hj : j < x.length) (hagree : AgreeAlong x j values values') {o : σ} {o' : σ'}
    {A A' : DenseMatrix ℝ} (hA : (f.jacobian x o).1 = .ok A)
    (hA' : (f'.jacobian x o').1 = .ok A') : A.columns[j]? = A'.columns[j]? := by
  have hpos : 0 < x.length := Nat.zero_lt_of_lt hj
  rw [hf.jacobian_eq, centralJacobian_eq_ok_iff hf.answers.values hpos] at hA
  rw [hf'.jacobian_eq, centralJacobian_eq_ok_iff hf'.answers.values hpos, hstep] at hA'
  exact getElem?_mapM_range hA.1 hA'.1 hj (twoSided_congr hagree hj _)

end Objective

end Minima
