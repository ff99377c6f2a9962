import Minima.Objective

/-!
# The working vector of central differences

Central differences move one coordinate of a working vector after the other.  A turn leaves the
vector as it was, so that all turns begin with the given point.
-/

namespace Minima

theorem set_getD_eq_modify {β : Type} (x : List β) (i : Nat) (b : β) (f : β → β) :
    x.set i (f (x.getD i b)) = x.modify i f := by
  induction x generalizing i with
  | nil => rw [List.set_nil, List.modify_nil]
  | cons a x ih =>
      cases i with
      | zero => rfl
      | succ i => exact (congrArg (a :: ·) (ih i)).trans (List.modify_succ_cons f a x i).symm

theorem set_getD_self {β : Type} (x : List β) (i : Nat) (b : β) : x.set i (x.getD i b) = x :=
  (set_getD_eq_modify x i b id).trans (List.modify_id i x)

namespace Objective

variable {σ α β γ : Type} [Scalar α] {ask : Vec α → Eval σ α β} {quotient : β → β → Checked α γ}
  {h : α} {x : Vec α}

def twoSided {M : Type → Type} [Monad M] (join : β → β → M γ) (ask : Vec α → M β) (h : α)
    (x : Vec α) (i : Nat) : M γ := do
  let after ← ask (x.modify i (· + h))
  let before ← ask (x.modify i (· - h))
  join after before

/-- The vector comes back from a turn as it was. -/
theorem turn_self (i : Nat) :
    turn ask quotient h x i x =
      (·, x) <$> twoSided (fun after before => attempt (quotient after before)) ask h x i := by
  have hahead : x.set i (x.getD i 0 + h) = x.modify i (· + h) :=
    set_getD_eq_modify x i 0 (· + h)
  have hbehind : x.set i (x.getD i 0 - h) = x.modify i (· - h) :=
    set_getD_eq_modify x i 0 (· - h)
  unfold turn twoSided
  dsimp only
  rw [List.set_set, List.set_set, hahead, hbehind, set_getD_self]
  simp only [map_eq_pure_bind, bind_assoc]

theorem sweep_turn (is : List Nat) :
    sweep (turn ask quotient h x) is x =
      is.mapM (twoSided (fun after before => attempt (quotient after before)) ask h x) := by
  induction is with
  | nil => rfl
  | cons i is ih =>
      rw [sweep, List.mapM_cons, turn_self, bind_map_left]
      dsimp only
      rw [ih]

end Objective

end Minima
