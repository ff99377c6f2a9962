import Minima.Double
import Minima.Proofs.Constraint

/-!
# Projecting and filling in

A projection keeps as many coordinates as its mask leaves free, in their order, and filling in
takes them back to the same places.  So the two undo each other up to the fixed coordinates, and
each of them answers for one length alone.
-/

namespace Minima.Projection

variable {α : Type} {values x y full : Vec α} {mask : List Bool} {p : Projection α}

theorem new_eq_ok_iff : new values mask = .ok p ↔ p.values = values ∧ p.mask = mask := by
  unfold new
  constructor
  · intro h
    split at h
    · split at h
      · cases h
        exact ⟨rfl, rfl⟩
      · contradiction
    · contradiction
  · rintro ⟨rfl, rfl⟩
    rw [dif_pos p.length_eq, dif_pos p.free_pos]

/-- `full` is `x` on the free coordinates, and has the fixed values elsewhere. -/
structure Fills (p : Projection α) (x full : Vec α) : Prop where
  length_eq : full.length = p.mask.length
  free {i : Nat} : p.mask[i]? = some false → full[i]? = x[i]?
  fixed {i : Nat} : p.mask[i]? = some true → full[i]? = p.values[i]?

/-! ## Lengths -/

theorem length_select (h : x.length = mask.length) : (select mask x).length = freeCount mask := by
  induction mask generalizing x with
  | nil => rw [List.eq_nil_of_length_eq_zero h]; rfl
  | cons fixed mask ih =>
      obtain ⟨a, x, rfl⟩ := List.exists_cons_of_length_eq_add_one h
      have hrest : x.length = mask.length := Nat.succ.inj h
      cases fixed with
      | true => exact ih hrest
      | false =>
          rw [freeCount, List.countP_cons_of_pos rfl]
          exact congrArg (· + 1) (ih hrest)

theorem project_eq_ok (h : x.length = p.mask.length) : p.project x = .ok (select p.mask x) :=
  if_pos h

theorem project_eq_error_iff {e : Failure α} :
    p.project x = .error e ↔
      x.length ≠ p.mask.length ∧ e = .invalid (.fullLength x.length p.mask.length) := by
  unfold project
  split
  · rename_i h
    exact iff_of_false nofun fun hne => hne.1 h
  · rename_i h
    rw [Except.error.injEq, eq_comm]
    exact (and_iff_right h).symm

theorem extend_eq_error_iff {e : Failure α} :
    p.extend y = .error e ↔
      y.length ≠ p.free ∧ e = .invalid (.freeLength y.length p.free) := by
  unfold extend
  split
  · rename_i h
    exact iff_of_false nofun fun hne => hne.1 h
  · rename_i h
    rw [Except.error.injEq, eq_comm]
    exact (and_iff_right h).symm

/-! ## Round trips -/

theorem project_fill (hy : y.length = p.free) : p.project (fill p.values p.mask y) = .ok y := by
  have hlength : (fill p.values p.mask y).length = p.mask.length :=
    (length_fill p.values p.mask y).trans p.length_eq
  rw [project_eq_ok hlength, select_fill p.length_eq hy]

theorem getElem?_fill_select (hvalues : values.length = mask.length)
    (hx : x.length = mask.length) (i : Nat) :
    (fill values mask (select mask x))[i]? =
      if mask[i]? = some true then values[i]? else x[i]? := by
  induction mask generalizing values x i with
  | nil =>
      rw [List.eq_nil_of_length_eq_zero hvalues, List.eq_nil_of_length_eq_zero hx]
      rfl
  | cons fixed mask ih =>
      obtain ⟨v, values, rfl⟩ := List.exists_cons_of_length_eq_add_one hvalues
      obtain ⟨a, x, rfl⟩ := List.exists_cons_of_length_eq_add_one hx
      have hrest (i : Nat) := ih (Nat.succ.inj hvalues) (Nat.succ.inj hx) i
      cases i with
      | zero => cases fixed <;> rfl
      | succ i => cases fixed <;> exact hrest i

theorem fills_select (hx : x.length = p.mask.length) :
    p.Fills x (fill p.values p.mask (select p.mask x)) where
  length_eq := (length_fill _ _ _).trans p.length_eq
  free h := by rw [getElem?_fill_select p.length_eq hx, if_neg (by rw [h]; nofun)]
  fixed h := by rw [getElem?_fill_select p.length_eq hx, if_pos h]

theorem project_bind_extend (hx : x.length = p.mask.length) :
    p.project x >>= p.extend = .ok (fill p.values p.mask (select p.mask x)) := by
  rw [project_eq_ok hx]
  exact extend_eq_ok (length_select hx)

theorem project_bind_extend_idempotent (hx : x.length = p.mask.length) :
    p.project (fill p.values p.mask (select p.mask x)) >>= p.extend =
      .ok (fill p.values p.mask (select p.mask x)) := by
  rw [project_fill (length_select hx)]
  exact extend_eq_ok (length_select hx)

/-- Of an accepted projection: what is filled in is projected to the same again; a full vector
that is projected and filled in keeps its free coordinates, has the fixed values elsewhere, and
stays if this is done once more.  Both fail for a wrong length, and for nothing else. -/
theorem project_extend_round_trip (h : new values mask = .ok p) :
    (∀ y, y.length = freeCount mask →
        ∃ full, p.extend y = .ok full ∧ p.project full = .ok y) ∧
      (∀ x, x.length = mask.length → ∃ full, p.project x >>= p.extend = .ok full ∧
        p.Fills x full ∧ p.project full >>= p.extend = .ok full) ∧
      (∀ y e, p.extend y = .error e ↔ y.length ≠ freeCount mask ∧
        e = .invalid (.freeLength y.length (freeCount mask))) ∧
      ∀ x e, p.project x = .error e ↔ x.length ≠ mask.length ∧
        e = .invalid (.fullLength x.length mask.length) := by
  obtain ⟨rfl, rfl⟩ := new_eq_ok_iff.mp h
  refine ⟨fun y hy => ⟨_, extend_eq_ok hy, project_fill hy⟩, fun x hx => ?_,
    fun y e => extend_eq_error_iff, fun x e => project_eq_error_iff⟩
  exact ⟨_, project_bind_extend hx, fills_select hx, project_bind_extend_idempotent hx⟩

/-! ## A coordinate fixed between two free ones -/

def middleAtTwo : Projection Float := ⟨[1, 2, 3], [false, true, false], rfl, Nat.two_pos⟩

theorem project_extend_round_trip_middleAtTwo :
    new [1, 2, 3] [false, true, false] = .ok middleAtTwo ∧
      middleAtTwo.extend [4, 6] = .ok [4, 2, 6] ∧ middleAtTwo.project [4, 2, 6] = .ok [4, 6] ∧
      (middleAtTwo.project [4, 5, 6] >>= middleAtTwo.extend) = .ok [4, 2, 6] ∧
      middleAtTwo.extend [1] = .error (.invalid (.freeLength 1 2)) ∧
      middleAtTwo.project [4, 6] = .error (.invalid (.fullLength 2 3)) := by
  have hnew : new [1, 2, 3] [false, true, false] = .ok middleAtTwo :=
    new_eq_ok_iff.mpr ⟨rfl, rfl⟩
  obtain ⟨hextend, hproject, hshort, hwrong⟩ := project_extend_round_trip hnew
  obtain ⟨full, hfull, hback⟩ := hextend [4, 6] rfl
  obtain rfl : [4, 2, 6] = full := Except.ok.inj hfull
  obtain ⟨full, hfull, -, -⟩ := hproject [4, 5, 6] rfl
  obtain rfl : [4, 2, 6] = full := Except.ok.inj hfull
  exact ⟨hnew, rfl, hback, hfull, (hshort [1] _).mpr ⟨by decide, rfl⟩,
    (hwrong [4, 6] _).mpr ⟨by decide, rfl⟩⟩

end Minima.Projection
