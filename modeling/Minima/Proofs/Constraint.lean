import Mathlib.Data.List.Forall2
import Minima.Proofs.Ordered
import Minima.Region.Constraint

/-!
# The bounds of constraints

A feasible point lies between the bounds that its constraint gives, at whatever point these are
asked for, as far as its coordinates do not exceed the largest number.
-/

namespace Minima

/-! ## Projections -/

namespace Projection

variable {α : Type}

theorem length_fill (values : List α) (mask : List Bool) (y : List α) :
    (fill values mask y).length = values.length := by
  fun_induction fill values mask y with
  | case1 v values mask y ih => rw [List.length_cons, List.length_cons, ih]
  | case2 v values mask a y ih => rw [List.length_cons, List.length_cons, ih]
  | case3 => rfl

theorem extend_eq_ok {p : Projection α} {y : List α} (h : y.length = p.free) :
    p.extend y = .ok (fill p.values p.mask y) := if_pos h

theorem eq_fill_of_extend {p : Projection α} {y full : List α} (h : p.extend y = .ok full) :
    y.length = p.free ∧ full = fill p.values p.mask y := by
  unfold extend at h
  split at h
  · cases h
    exact ⟨‹_›, rfl⟩
  · contradiction

theorem select_fill {values : List α} {mask : List Bool} {y : List α}
    (hvalues : values.length = mask.length) (hy : y.length = freeCount mask) :
    select mask (fill values mask y) = y := by
  induction mask generalizing values y with
  | nil =>
      rw [List.eq_nil_of_length_eq_zero hvalues, List.eq_nil_of_length_eq_zero hy]
      rfl
  | cons fixed mask ih =>
      obtain ⟨v, values, rfl⟩ := List.exists_cons_of_length_eq_add_one hvalues
      have hrest : values.length = mask.length := Nat.succ.inj hvalues
      cases fixed with
      | true => exact ih hrest hy
      | false =>
          rw [freeCount, List.countP_cons_of_pos rfl] at hy
          obtain ⟨a, y, rfl⟩ := List.exists_cons_of_length_eq_add_one hy
          exact congrArg (a :: ·) (ih hrest (Nat.succ.inj hy))

theorem forall₂_select {β : Type} {R : α → β → Prop} (mask : List Bool) {a : List α} {b : List β}
    (h : List.Forall₂ R a b) : List.Forall₂ R (select mask a) (select mask b) := by
  induction h generalizing mask with
  | nil =>
      cases mask with
      | nil => exact .nil
      | cons fixed mask => cases fixed <;> exact .nil
  | cons hab _ ih =>
      cases mask with
      | nil => exact .nil
      | cons fixed mask =>
          cases fixed with
          | true => exact ih mask
          | false => exact .cons hab (ih mask)

end Projection

/-! ## Bounds -/

namespace Constraint

open OrderedScalar

variable {α : Type} {R : α → α → Prop} {x y bound : Vec α}

theorem forall₂_replicate {b : α} (h : ∀ a ∈ y, R a b) :
    List.Forall₂ R y (List.replicate y.length b) := by
  induction y with
  | nil => exact .nil
  | cons a y ih =>
      obtain ⟨ha, hy⟩ := List.forall_mem_cons.mp h
      exact .cons ha (ih hy)

theorem forall₂_zipWith {join : α → α → α} {b c : Vec α}
    (hjoin : ∀ a b c, R a b → R a c → R a (join b c)) (hb : List.Forall₂ R y b)
    (hc : List.Forall₂ R y c) : List.Forall₂ R y (List.zipWith join b c) := by
  induction hb generalizing c with
  | nil =>
      cases hc
      exact .nil
  | cons hb _ ih =>
      cases hc with
      | cons hc hrest => exact .cons (hjoin _ _ _ hb hc) (ih hrest)

theorem joinBounds_eq_ok (join : α → α → α) {b c : Vec α} (h : b.length = c.length) :
    joinBounds join b c = .ok (List.zipWith join b c) := by
  have hsame : requireSame b.length c.length = (.ok () : Checked α Unit) := if_pos h
  rw [joinBounds, hsame]
  rfl

theorem exists_joinBounds {join : α → α → α} {first second : Checked α (Vec α)}
    (hjoin : ∀ a b c, R a b → R a c → R a (join b c))
    (hfirst : ∃ b, first = .ok b ∧ List.Forall₂ R y b)
    (hsecond : ∃ b, second = .ok b ∧ List.Forall₂ R y b) :
    ∃ b, (do joinBounds join (← first) (← second)) = .ok b ∧ List.Forall₂ R y b := by
  obtain ⟨b, rfl, hb⟩ := hfirst
  obtain ⟨c, rfl, hc⟩ := hsecond
  exact ⟨List.zipWith join b c, joinBounds_eq_ok join (hb.length_eq.symm.trans hc.length_eq),
    forall₂_zipWith hjoin hb hc⟩

theorem projectedBound_eq_ok {inner : Vec α → Checked α (Vec α)} {p : Projection α}
    (fallback : α) {b : Vec α} (hx : x.length = p.free)
    (hinner : inner (Projection.fill p.values p.mask x) = .ok b) (hb : b.length = p.mask.length) :
    projectedBound inner p fallback x = .ok (Projection.select p.mask b) := by
  have hextend := Projection.extend_eq_ok hx
  have hproject : p.project b = .ok (Projection.select p.mask b) := if_pos hb
  simp only [projectedBound, hextend, hinner, bind, Except.bind, hproject]

theorem exists_projectedBound {inner : Vec α → Checked α (Vec α)} {p : Projection α}
    {full : Vec α} (fallback : α) (hfull : p.extend y = .ok full)
    (hinner : ∀ {x : Vec α}, full.length = x.length →
      ∃ b, inner x = .ok b ∧ List.Forall₂ R full b)
    (hlength : y.length = x.length) :
    ∃ b, projectedBound inner p fallback x = .ok b ∧ List.Forall₂ R y b := by
  obtain ⟨hfree, rfl⟩ := Projection.eq_fill_of_extend hfull
  obtain ⟨b, hb, hbound⟩ := hinner (x := Projection.fill p.values p.mask x)
    (by rw [Projection.length_fill, Projection.length_fill])
  have hmask : b.length = p.mask.length := by
    rw [← hbound.length_eq, Projection.length_fill, p.length_eq]
  have hselect := Projection.forall₂_select p.mask hbound
  rw [Projection.select_fill p.length_eq hfree] at hselect
  exact ⟨_, projectedBound_eq_ok fallback (hlength.symm.trans hfree) hb hmask, hselect⟩

theorem forall₂_between {low high : Vec α} [Scalar α] (hlow : y.length = low.length)
    (hhigh : y.length = high.length) (h : between low high y = true) :
    List.Forall₂ (fun a l => l ≤ a) y low ∧ List.Forall₂ (· ≤ ·) y high := by
  induction y generalizing low high with
  | nil =>
      rw [List.eq_nil_of_length_eq_zero hlow.symm, List.eq_nil_of_length_eq_zero hhigh.symm]
      exact ⟨.nil, .nil⟩
  | cons a y ih =>
      obtain ⟨l, low, rfl⟩ := List.exists_cons_of_length_eq_add_one hlow.symm
      obtain ⟨u, high, rfl⟩ := List.exists_cons_of_length_eq_add_one hhigh.symm
      simp only [between, Bool.and_eq_true, decide_eq_true_eq] at h
      obtain ⟨⟨hl, hu⟩, hrest⟩ := h
      obtain ⟨hlows, hhighs⟩ := ih (Nat.succ.inj hlow) (Nat.succ.inj hhigh) hrest
      exact ⟨.cons hl hlows, .cons hu hhighs⟩

/-! ## Feasible points -/

/-- Wherever there is a bound for each coordinate, there are as many lower as upper ones. -/
def Paired : Constraint α → Prop
  | nonhomogeneous low high => low.length = high.length
  | composite first second => first.Paired ∧ second.Paired
  | projected inner _ => inner.Paired
  | _ => True

/-- Bounds are paired when they are built. -/
theorem paired_newNonhomogeneous {low high : Vec α} {c : Constraint α}
    (h : newNonhomogeneous low high = .ok c) : c.Paired := by
  unfold newNonhomogeneous at h
  split at h
  · cases h
    assumption
  · contradiction

variable [Scalar α]

/-- An upper bound that leaves out nothing up to `a`, as far as the largest number. -/
structure Caps (a u : α) : Prop where
  defined : u ≤ u
  le {b : α} : b ≤ Scalar.largest → ¬ a < b → b ≤ u

/-- A lower bound that leaves out nothing from `a` on, as far as the least number. -/
structure Carries (a l : α) : Prop where
  defined : l ≤ l
  le {b : α} : -Scalar.largest ≤ b → ¬ b < a → l ≤ b

variable {c : Constraint α} {a b u l : α}

theorem Caps.min (hb : Caps a b) (hu : Caps a u) : Caps a (Scalar.min b u) := by
  unfold Scalar.min
  split
  · exact hu
  split
  · exact hu
  · exact hb

theorem Carries.max (hb : Carries a b) (hl : Carries a l) : Carries a (Scalar.max b l) := by
  unfold Scalar.max
  split
  · exact hl
  split
  · exact hl
  · exact hb

variable [OrderedScalar α]

theorem caps_of_le (h : a ≤ u) : Caps a u :=
  ⟨le_refl_right h, fun hb hab =>
    le_trans (le_of_not_lt (le_refl_left h) (le_refl_left hb) hab) h⟩

theorem carries_of_le (h : l ≤ a) : Carries a l :=
  ⟨le_refl_left h, fun hb hab =>
    le_trans h (le_of_not_lt (le_refl_right hb) (le_refl_right h) hab)⟩

theorem exists_upper (hlargest : (Scalar.largest : α) ≤ Scalar.largest) (hc : c.Paired)
    (hy : c.contains y = true) (hlength : y.length = x.length) :
    ∃ bound, c.upper x = .ok bound ∧ List.Forall₂ Caps y bound := by
  induction c generalizing x y with
  | none => exact ⟨_, rfl, hlength ▸ forall₂_replicate fun _ _ => ⟨hlargest, fun hb _ => hb⟩⟩
  | positive => exact ⟨_, rfl, hlength ▸ forall₂_replicate fun _ _ => ⟨hlargest, fun hb _ => hb⟩⟩
  | boundary low high =>
      refine ⟨_, rfl, hlength ▸ forall₂_replicate fun a ha => caps_of_le ?_⟩
      have hall := List.all_eq_true.mp hy a ha
      rw [Bool.and_eq_true, decide_eq_true_eq, decide_eq_true_eq] at hall
      exact hall.2
  | nonhomogeneous low high =>
      rw [contains, Bool.and_eq_true, beq_iff_eq] at hy
      obtain ⟨-, hhigh⟩ := forall₂_between hy.1 (hy.1.trans hc) hy.2
      exact ⟨_, rfl, hhigh.imp fun _ _ => caps_of_le⟩
  | composite first second hfirst hsecond =>
      rw [contains, Bool.and_eq_true] at hy
      exact exists_joinBounds (fun _ _ _ => Caps.min) (hfirst hc.1 hy.1 hlength)
        (hsecond hc.2 hy.2 hlength)
  | projected inner p ih =>
      rw [contains] at hy
      split at hy
      · rename_i full hfull
        exact exists_projectedBound _ hfull (ih hc hy) hlength
      · contradiction

theorem exists_lower (hlargest : (-Scalar.largest : α) ≤ -Scalar.largest) (hc : c.Paired)
    (hy : c.contains y = true) (hlength : y.length = x.length) :
    ∃ bound, c.lower x = .ok bound ∧ List.Forall₂ Carries y bound := by
  induction c generalizing x y with
  | none => exact ⟨_, rfl, hlength ▸ forall₂_replicate fun _ _ => ⟨hlargest, fun hb _ => hb⟩⟩
  | positive =>
      refine ⟨_, rfl, hlength ▸ forall₂_replicate fun a ha => carries_of_le ?_⟩
      exact le_of_lt (of_decide_eq_true (List.all_eq_true.mp hy a ha))
  | boundary low high =>
      refine ⟨_, rfl, hlength ▸ forall₂_replicate fun a ha => carries_of_le ?_⟩
      have hall := List.all_eq_true.mp hy a ha
      rw [Bool.and_eq_true, decide_eq_true_eq, decide_eq_true_eq] at hall
      exact hall.1
  | nonhomogeneous low high =>
      rw [contains, Bool.and_eq_true, beq_iff_eq] at hy
      obtain ⟨hlow, -⟩ := forall₂_between hy.1 (hy.1.trans hc) hy.2
      exact ⟨_, rfl, hlow.imp fun _ _ => carries_of_le⟩
  | composite first second hfirst hsecond =>
      rw [contains, Bool.and_eq_true] at hy
      exact exists_joinBounds (fun _ _ _ => Carries.max) (hfirst hc.1 hy.1 hlength)
        (hsecond hc.2 hy.2 hlength)
  | projected inner p ih =>
      rw [contains] at hy
      split at hy
      · rename_i full hfull
        exact exists_projectedBound _ hfull (ih hc hy) hlength
      · contradiction

end Constraint

end Minima
