import Minima.Double
import Minima.Objective.Recorded
import Minima.Proofs.Constraint
import Minima.Proofs.Objective
import Minima.Proofs.Objective.Differences

/-!
# Derivatives with fixed coordinates

A step of a free coordinate and filling in the fixed ones commute.  The central differences of
an objective with fixed coordinates are therefore those of the whole one at the free coordinates,
with the same step.
-/

namespace Minima

/-! ## Steps of free coordinates -/

namespace Projection

variable {α β γ : Type}

theorem select_map (g : β → γ) (mask : List Bool) (x : List β) :
    select mask (x.map g) = (select mask x).map g := by
  induction mask generalizing x with
  | nil => rfl
  | cons fixed mask ih =>
      cases x with
      | nil => cases fixed <;> rfl
      | cons a x =>
          cases fixed with
          | true => exact ih x
          | false => exact congrArg (g a :: ·) (ih x)

theorem mem_of_mem_select {mask : List Bool} {x : List β} {a : β} (h : a ∈ select mask x) :
    a ∈ x := by
  fun_induction select mask x with
  | case1 mask b x ih => exact List.mem_cons_of_mem b (ih h)
  | case2 mask b x ih =>
      rcases List.mem_cons.mp h with rfl | h
      · exact List.mem_cons_self
      · exact List.mem_cons_of_mem b (ih h)
  | case3 => contradiction

def freePositions (mask : List Bool) : List Nat := select mask (List.range mask.length)

theorem freePositions_true (mask : List Bool) :
    freePositions (true :: mask) = (freePositions mask).map Nat.succ := by
  rw [freePositions, List.length_cons, List.range_succ_eq_map]
  exact select_map Nat.succ mask _

theorem freePositions_false (mask : List Bool) :
    freePositions (false :: mask) = 0 :: (freePositions mask).map Nat.succ := by
  rw [freePositions, List.length_cons, List.range_succ_eq_map]
  exact congrArg (0 :: ·) (select_map Nat.succ mask _)

theorem forall₂_fill_modify {values : List α} {mask : List Bool} {y : List α}
    (hvalues : values.length = mask.length) (hy : y.length = freeCount mask) :
    List.Forall₂
      (fun i j => ∀ f, fill values mask (y.modify i f) = (fill values mask y).modify j f)
      (List.range y.length) (freePositions mask) := by
  induction mask generalizing values y with
  | nil =>
      rw [List.eq_nil_of_length_eq_zero hy]
      exact .nil
  | cons fixed mask ih =>
      obtain ⟨v, values, rfl⟩ := List.exists_cons_of_length_eq_add_one hvalues
      have hrest : values.length = mask.length := Nat.succ.inj hvalues
      cases fixed with
      | true =>
          rw [freePositions_true, List.forall₂_map_right_iff]
          refine (ih hrest hy).imp fun i j hij f => ?_
          exact (congrArg (v :: ·) (hij f)).trans (List.modify_succ_cons f v _ j).symm
      | false =>
          rw [freeCount, List.countP_cons_of_pos rfl] at hy
          obtain ⟨a, y, rfl⟩ := List.exists_cons_of_length_eq_add_one hy
          rw [freePositions_false, List.length_cons, List.range_succ_eq_map]
          refine .cons (fun _ => rfl) ?_
          rw [List.forall₂_map_left_iff, List.forall₂_map_right_iff]
          refine (ih hrest (Nat.succ.inj hy)).imp fun i j hij f => ?_
          rw [Nat.succ_eq_add_one, Nat.succ_eq_add_one, List.modify_succ_cons]
          exact (congrArg (a :: ·) (hij f)).trans (List.modify_succ_cons f a _ j).symm

end Projection

theorem mapM_select {α β γ : Type} {g : β → Checked α γ} {inputs : List β} {made : List γ}
    (mask : List Bool) (h : inputs.mapM g = .ok made) :
    (Projection.select mask inputs).mapM g = .ok (Projection.select mask made) :=
  mapM_eq_ok_iff.mpr (Projection.forall₂_select mask (mapM_eq_ok_iff.mp h))

/-! ## Derivatives of the restricted objective -/

namespace Objective

variable {σ α β γ : Type}

theorem settled_extend {ask : Vec α → Eval σ α β} {answer : Vec α → Checked α β}
    (hask : ∀ x, Settled (ask x) (answer x)) (p : Projection α) (y : Vec α) :
    Settled (do ask (← attempt (p.extend y))) (p.extend y >>= answer) :=
  (settled_attempt _).bind hask

variable [Scalar α]

theorem mapM_twoSided_extend {p : Projection α} {y : Vec α} (hy : y.length = p.free)
    (join : β → β → Checked α γ) (ask : Vec α → Checked α β) (h : α) :
    (List.range y.length).mapM (twoSided join (fun y => p.extend y >>= ask) h y) =
      (Projection.freePositions p.mask).mapM
        (twoSided join ask h (Projection.fill p.values p.mask y)) := by
  refine mapM_congr_forall₂ ((Projection.forall₂_fill_modify p.length_eq hy).imp ?_)
  intro i j hij
  have hextend (g : α → α) : p.extend (y.modify i g) = .ok _ :=
    Projection.extend_eq_ok ((List.length_modify g y i).trans hy)
  rw [twoSided, hextend, hextend, hij, hij]
  rfl

variable {f : Objective σ α} {value : Vec α → Checked α α} {values : Vec α → Checked α (Vec α)}
  {p : Projection α} {y : Vec α}

/-- The gradient of the restricted objective asks for the quotients at the free coordinates
and for no others, whether they are found or not. -/
theorem settled_projected_gradient (answers : f.Answers value values) (hy : y.length = p.free) :
    Settled ((f.projected p).gradient y)
      ((Projection.freePositions p.mask).mapM
        (twoSided (slope f.step) value f.step (Projection.fill p.values p.mask y))) := by
  rw [← mapM_twoSided_extend hy]
  exact settled_centralGradient (settled_extend answers.value p) f.step y

theorem projected_gradient (answers : f.Answers value values)
    (hgradient : f.gradient = centralGradient f.value f.step) (hy : y.length = p.free)
    {o o' : σ} {g : Vec α}
    (hg : (f.gradient (Projection.fill p.values p.mask y) o).1 = .ok g) :
    ∃ g', p.project g = .ok g' ∧ ((f.projected p).gradient y o').1 = .ok g' := by
  rw [hgradient, settled_centralGradient answers.value f.step _ o] at hg
  have hlength : g.length = p.mask.length := by
    rw [← (mapM_eq_ok_iff.mp hg).length_eq, List.length_range, Projection.length_fill, p.length_eq]
  have hfree := mapM_select p.mask hg
  rw [Projection.length_fill, p.length_eq] at hfree
  exact ⟨_, if_pos hlength, (settled_projected_gradient answers hy o').trans hfree⟩

theorem projected_jacobian (answers : f.Answers value values)
    (hjacobian : f.jacobian = centralJacobian f.values f.step) (hy : y.length = p.free)
    {o o' : σ} {jacobian : DenseMatrix α}
    (h : (f.jacobian (Projection.fill p.values p.mask y) o).1 = .ok jacobian) :
    jacobian.columns.length = p.mask.length ∧
      ((f.projected p).jacobian y o').1 =
        .ok ⟨jacobian.rows, Projection.select p.mask jacobian.columns⟩ := by
  have hfull : (Projection.fill p.values p.mask y).length = p.mask.length :=
    (Projection.length_fill _ _ y).trans p.length_eq
  have hpos : 0 < (Projection.fill p.values p.mask y).length :=
    hfull ▸ Nat.lt_of_lt_of_le p.free_pos List.countP_le_length
  rw [hjacobian, centralJacobian_eq_ok_iff answers.values hpos] at h
  obtain ⟨hcolumns, hrows⟩ := h
  have hlength := (mapM_eq_ok_iff.mp hcolumns).length_eq
  rw [List.length_range, hfull] at hlength
  refine ⟨hlength.symm, (centralJacobian_eq_ok_iff (settled_extend answers.values p)
    (hy ▸ p.free_pos)).mpr ⟨?_, fun column hcolumn => hrows column ?_⟩⟩
  · have hfree := mapM_select p.mask hcolumns
    rw [hfull] at hfree
    exact (mapM_twoSided_extend hy _ _ _).trans hfree
  · exact Projection.mem_of_mem_select hcolumn

/-- The derivatives by differences of an objective with fixed coordinates are those of the whole
objective, where these can be evaluated, at the point with the fixed coordinates filled in: the
projected gradient, and the columns of the Jacobian for the free coordinates, in order. -/
theorem projected_derivatives (answers : f.Answers value values)
    (hgradient : f.gradient = centralGradient f.value f.step)
    (hjacobian : f.jacobian = centralJacobian f.values f.step) (p : Projection α)
    (hy : y.length = p.free) (o o' : σ) :
    ∃ full, p.extend y = .ok full ∧
      (∀ g, (f.gradient full o).1 = .ok g →
        ∃ g', p.project g = .ok g' ∧ ((f.projected p).gradient y o').1 = .ok g') ∧
      ∀ jacobian, (f.jacobian full o).1 = .ok jacobian →
        jacobian.columns.length = full.length ∧
          ((f.projected p).jacobian y o').1 =
            .ok ⟨jacobian.rows, Projection.select p.mask jacobian.columns⟩ := by
  refine ⟨_, Projection.extend_eq_ok hy, fun g hg => ?_, fun jacobian h => ?_⟩
  · exact projected_gradient answers hgradient hy hg
  · rw [Projection.length_fill, p.length_eq]
    exact projected_jacobian answers hjacobian hy h

/-! ## A product with its first factor fixed -/

def product : Objective (List (Evaluation Float)) Float :=
  Cost.objective
    ⟨fun x => .ok (x.foldl (· * ·) 1), some fun x => .ok [x.headD 0, x.foldl (· * ·) 1],
      none, none, 0.5⟩

def firstAtTwo : Projection Float := ⟨[2, 0], [true, false], rfl, Nat.one_pos⟩

theorem gradient_product : (product.gradient [2, 1] []).1 = .ok [1, 2] := by
  have hslopes : [(0.5 * (1 * (2 + 0.5) * 1 - 1 * (2 - 0.5) * 1) / 0.5 : Float),
      0.5 * (1 * 2 * (1 + 0.5) - 1 * 2 * (1 - 0.5)) / 0.5] = [1, 2] := by
    decide +kernel
  exact congrArg Except.ok hslopes

theorem jacobian_product : (product.jacobian [2, 1] []).1 = .ok ⟨2, [[1, 1], [0, 2]]⟩ := by
  have hfirst : [((2 + 0.5) - (2 - 0.5)) * (0.5 / 0.5),
      (1 * (2 + 0.5) * 1 - 1 * (2 - 0.5) * 1) * (0.5 / 0.5)] = [(1 : Float), 1] := by
    decide +kernel
  have hsecond : [(2 - 2) * (0.5 / 0.5),
      (1 * 2 * (1 + 0.5) - 1 * 2 * (1 - 0.5)) * (0.5 / 0.5)] = [(0 : Float), 2] := by
    decide +kernel
  exact congrArg₂ (fun first second => Except.ok (DenseMatrix.mk 2 [first, second])) hfirst hsecond

theorem projected_derivatives_product :
    firstAtTwo.extend [1] = .ok [2, 1] ∧
      (product.gradient [2, 1] []).1 = .ok [1, 2] ∧
      firstAtTwo.project [1, 2] = .ok [(2 : Float)] ∧
      ((product.projected firstAtTwo).gradient [1] []).1 = .ok [2] ∧
      (product.jacobian [2, 1] []).1 = .ok ⟨2, [[1, 1], [0, 2]]⟩ ∧
      ((product.projected firstAtTwo).jacobian [1] []).1 = .ok ⟨2, [[0, 2]]⟩ := by
  obtain ⟨full, hfull, hgradient, hjacobian⟩ :=
    projected_derivatives (Cost.objective_answers _ : product.Answers _ _) rfl rfl firstAtTwo
      (y := [1]) rfl [] []
  obtain rfl : [2, 1] = full := Except.ok.inj hfull
  obtain ⟨g, hg, hprojected⟩ := hgradient _ gradient_product
  obtain rfl : [2] = g := Except.ok.inj hg
  exact ⟨rfl, gradient_product, rfl, hprojected, jacobian_product,
    (hjacobian _ jacobian_product).2⟩

end Objective

end Minima
