import Minima.Proofs.Exact.Vec
import Minima.Proofs.LineSearch
import Minima.Proofs.Projection
import Minima.Proofs.Region.Halving

/-!
# Moves with fixed coordinates

A region with fixed coordinates is asked for free ones, and answers as the whole region does once
the fixed values are filled in.  In exact arithmetic filling in and a step commute, if the step of
the whole vector is zero where coordinates are fixed.  So the search for a feasible step among the
free coordinates asks for the same points as the one among all of them, and ends where it does.
-/

namespace Minima

namespace Region

variable {α : Type} [Scalar α]

/-- The free coordinates that lie in the region once the fixed ones are filled in. -/
def projected (region : Region α) (p : Projection α) : Region α where
  contains y :=
    match p.extend y with
    | .ok full => region.contains full
    | .error _ => false
  upper := Constraint.projectedBound region.upper p Scalar.largest
  lower := Constraint.projectedBound region.lower p (-Scalar.largest)

end Region

namespace Constraint

theorem region_projected {α : Type} [Scalar α] (c : Constraint α) (p : Projection α) :
    (projected c p).region = c.region.projected p := rfl

end Constraint

namespace Projection

def spread {α : Type} [Scalar α] (p : Projection α) (d : Vec α) : Vec α :=
  fill (Vec.zeros p.mask.length) p.mask d

variable {values y d : Vec ℝ} {mask : List Bool}

theorem fill_along (hvalues : values.length = mask.length) (hy : y.length = freeCount mask)
    (hd : d.length = freeCount mask) (step : ℝ) :
    fill values mask (Region.along y d step) =
      Region.along (fill values mask y) (fill (Vec.zeros mask.length) mask d) step := by
  induction mask generalizing values y d with
  | nil => rw [List.eq_nil_of_length_eq_zero hvalues]; rfl
  | cons fixed mask ih =>
      obtain ⟨v, values, rfl⟩ := List.exists_cons_of_length_eq_add_one hvalues
      have hrest : values.length = mask.length := Nat.succ.inj hvalues
      cases fixed with
      | true =>
          have hstill : v = v + 0 * step := by rw [zero_mul, add_zero]
          exact congrArg₂ List.cons hstill (ih hrest hy hd)
      | false =>
          rw [freeCount, List.countP_cons_of_pos rfl] at hy hd
          obtain ⟨a, y, rfl⟩ := List.exists_cons_of_length_eq_add_one hy
          obtain ⟨b, d, rfl⟩ := List.exists_cons_of_length_eq_add_one hd
          exact congrArg (List.cons (a + b * step)) (ih hrest (Nat.succ.inj hy) (Nat.succ.inj hd))

end Projection

namespace Region

open Projection

section

variable {α : Type} [Scalar α] {region : Region α} {p : Projection α} {y : Vec α}

theorem contains_projected (hy : y.length = p.free) :
    (region.projected p).contains y = region.contains (fill p.values p.mask y) := by
  change (match p.extend y with | .ok full => region.contains full | .error _ => false) = _
  rw [extend_eq_ok hy]

theorem length_of_contains_projected (h : (region.projected p).contains y = true) :
    y.length = p.free := by
  change (match p.extend y with | .ok full => region.contains full | .error _ => false) = true at h
  split at h
  · rename_i hfull
    exact (eq_fill_of_extend hfull).1
  · contradiction

/-- The same with the fixed coordinates filled in, in the point and in the questions. -/
def Moving.filled (p : Projection α) (s : Moving α) : Moving α :=
  ⟨fill p.values p.mask s.point, s.asked.map (fill p.values p.mask)⟩

end

variable {region : Region ℝ} {p : Projection ℝ} {y d : Vec ℝ} {step : ℝ} {s : Moving ℝ}

/-- The two searches ask for corresponding points, trial by trial, and find corresponding ones. -/
theorem search_filled (region : Region ℝ) (hy : y.length = p.free) (hd : d.length = p.free)
    (halvings : Nat) (step : ℝ) (s : Moving ℝ) :
    region.search (fill p.values p.mask y) (p.spread d) halvings step (s.filled p) =
      ((region.projected p).search y d halvings step s).map
        (Option.map (Prod.map id (fill p.values p.mask))) (Moving.filled p) := by
  have hlength (step : ℝ) : (along y d step).length = p.free := by
    rw [along, Vec.add, Vec.scale, List.length_zipWith, List.length_map, hy, hd, Nat.min_self]
  have hcontains (step : ℝ) : region.contains (along (fill p.values p.mask y) (p.spread d) step) =
      (region.projected p).contains (along y d step) := by
    rw [contains_projected (hlength step), fill_along p.length_eq hy hd]
    rfl
  have hfound (step : ℝ) : along (fill p.values p.mask y) (p.spread d) step =
      fill p.values p.mask (along y d step) := (fill_along p.length_eq hy hd step).symm
  induction halvings generalizing step s with
  | zero =>
      rw [search, search, ask_bind, ask_bind, hcontains, hfound]
      cases (region.projected p).contains (along y d step) with
      | true => rfl
      | false => rfl
  | succ halvings ih =>
      rw [search, search, ask_bind, ask_bind, hcontains, hfound]
      cases (region.projected p).contains (along y d step) with
      | true => rfl
      | false => exact ih (step * 0.5) (s.note [along y d step])

theorem length_fill_eq_spread (y d : Vec ℝ) :
    (fill p.values p.mask y).length = (p.spread d).length := by
  rw [length_fill, spread, length_fill, Vec.length_zeros, p.length_eq]

theorem move_filled (hy : y.length = p.free) (hd : d.length = p.free) (step : ℝ) :
    region.move (fill p.values p.mask y) (p.spread d) step =
      ((region.projected p).move y d step).map (Prod.map id (fill p.values p.mask)) := by
  have hsearch := search_filled region hy hd maxHalvings step ⟨y, []⟩
  rcases hfree : (region.projected p).search y d maxHalvings step ⟨y, []⟩ with ⟨answer, s'⟩
  rw [hfree] at hsearch
  rw [move_of_search (hy.trans hd.symm) hfree,
    move_of_search (length_fill_eq_spread y d) hsearch]
  cases answer with
  | none => rfl
  | some taken => rfl

theorem update_filled (hpoint : s.point.length = p.free) (hd : d.length = p.free) (step : ℝ) :
    region.update (p.spread d) step (s.filled p) =
      ((region.projected p).update d step s).map id (Moving.filled p) := by
  have hsearch := search_filled region hpoint hd maxHalvings step s
  rcases hfree : (region.projected p).search s.point d maxHalvings step s with ⟨answer, s'⟩
  rw [hfree] at hsearch
  rw [update_of_search (hpoint.trans hd.symm) hfree,
    update_of_search (length_fill_eq_spread s.point d) hsearch]
  cases answer with
  | none => rfl
  | some taken => rfl

/-- A move of the free coordinates simulates the move of the whole vector along the direction that
is zero where coordinates are fixed: both fail, or both take the same step, and the free
coordinates lead to the whole vector.  In place, with the usual loop of halvings for both of them,
the two ask for the same points in turn. -/
theorem move_simulates (region : Region ℝ) (p : Projection ℝ) (hy : y.length = p.free)
    (hd : d.length = p.free) (step : ℝ) :
    ∃ full, p.extend y = .ok full ∧
      ((∃ e, (region.projected p).move y d step = .error e ∧
          region.move full (p.spread d) step = .error e) ∨
        ∃ taken y' full', (region.projected p).move y d step = .ok (taken, y') ∧
          p.extend y' = .ok full' ∧ region.move full (p.spread d) step = .ok (taken, full')) ∧
      region.update (p.spread d) step ⟨full, []⟩ =
        ((region.projected p).update d step ⟨y, []⟩).map id (Moving.filled p) := by
  refine ⟨_, extend_eq_ok hy, ?_, update_filled (s := ⟨y, []⟩) hy hd step⟩
  rw [move_filled hy hd]
  cases hmove : (region.projected p).move y d step with
  | error e => exact .inl ⟨e, rfl, rfl⟩
  | ok moved =>
      obtain ⟨taken, y'⟩ := moved
      obtain ⟨hcontains, -⟩ := move_eq_ok (S := fun _ => True) (fun _ _ => trivial) trivial hmove
      have hy' := length_of_contains_projected hcontains
      exact .inr ⟨taken, y', _, rfl, extend_eq_ok hy', rfl⟩

/-! ## A square with the first coordinate fixed -/

noncomputable def square : Region ℝ := (Constraint.boundary 0 1).region

noncomputable def firstAtOne : Projection ℝ := ⟨[1, 0], [true, false], rfl, Nat.one_pos⟩

theorem contains_square (a : ℝ) :
    (square.projected firstAtOne).contains [a] = true ↔ 0 ≤ a ∧ a ≤ 1 := by
  rw [contains_projected (p := firstAtOne) rfl]
  change ([1, a] : Vec ℝ).all (fun a => decide (0 ≤ a) && decide (a ≤ 1)) = true ↔ _
  norm_num

theorem halved_two : halved (2 : ℝ) 1 = 1 := by
  norm_num [halved]

theorem fewest_square : Fewest (square.projected firstAtOne) [0] [1] 2 1 where
  contains := (contains_square _).mpr (by norm_num [halved_two])
  of_lt {j} hj := by
    obtain rfl : j = 0 := Nat.lt_one_iff.mp hj
    exact Bool.eq_false_iff.mpr fun h =>
      absurd ((contains_square _).mp h).2 (by norm_num [halved])

theorem move_square : (square.projected firstAtOne).move [0] [1] 2 = .ok (1, [1]) := by
  have hlength : [(0 : ℝ)].length = [(1 : ℝ)].length := rfl
  have hsearch := search_of_fewest fewest_square (by decide : 1 ≤ maxHalvings) ⟨[0], []⟩
  have hpoint : tried [0] [1] (2 : ℝ) 1 = [1] := by
    norm_num [tried, halved_two, along, Vec.add, Vec.scale]
  rw [halved_two, hpoint] at hsearch
  exact move_of_search hlength hsearch

theorem move_simulates_square :
    [(0 : ℝ)].length = firstAtOne.free ∧ [(1 : ℝ)].length = firstAtOne.free ∧
      (Constraint.projected (.boundary 0 1) firstAtOne).region.move [0] [1] 2 = .ok (1, [1]) ∧
      square.move [1, 0] [0, 1] 2 = .ok (1, [1, 1]) := by
  rw [Constraint.region_projected]
  obtain ⟨full, hfull, hmove, -⟩ :=
    move_simulates square firstAtOne (y := [0]) (d := [1]) rfl rfl 2
  obtain rfl : [1, 0] = full := Except.ok.inj hfull
  rcases hmove with ⟨e, hfree, -⟩ | ⟨taken, y', full', hfree, hfull', hwhole⟩
  · rw [move_square] at hfree
    contradiction
  · rw [move_square] at hfree
    cases hfree
    obtain rfl : [1, 1] = full' := Except.ok.inj hfull'
    exact ⟨rfl, rfl, move_square, hwhole⟩

end Region

end Minima
