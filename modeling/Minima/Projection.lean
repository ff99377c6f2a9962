import Minima.Failure
import Minima.Vec

/-!
# Free and fixed coordinates

A projection fixes some coordinates of a vector at given values.  `project`
keeps the free ones, `extend` fills the fixed ones in again.
-/

namespace Minima

def freeCount (mask : List Bool) : Nat := mask.countP (!·)

structure Projection (α : Type) where
  values : Vec α
  /-- Which coordinates are fixed. -/
  mask : List Bool
  length_eq : values.length = mask.length
  free_pos : 0 < freeCount mask

namespace Projection

variable {α : Type}

def new (values : Vec α) (mask : List Bool) : Checked α (Projection α) :=
  if same : values.length = mask.length then
    if free : 0 < freeCount mask then .ok ⟨values, mask, same, free⟩
    else .error (.invalid .allFixed)
  else .error (.invalid (.maskLength mask.length values.length))

def free (p : Projection α) : Nat := freeCount p.mask

def select : List Bool → List α → List α
  | true :: mask, _ :: x => select mask x
  | false :: mask, a :: x => a :: select mask x
  | _, _ => []

/-- Replaces the entries of `values` where the mask is false by those of `y`, in order. -/
def fill : (values : List α) → (mask : List Bool) → (y : List α) → List α
  | v :: values, true :: mask, y => v :: fill values mask y
  | _ :: values, false :: mask, a :: y => a :: fill values mask y
  | values, _, _ => values

def project (p : Projection α) (x : Vec α) : Checked α (Vec α) :=
  if x.length = p.mask.length then .ok (select p.mask x)
  else .error (.invalid (.fullLength x.length p.mask.length))

def extend (p : Projection α) (y : Vec α) : Checked α (Vec α) :=
  if y.length = p.free then .ok (fill p.values p.mask y)
  else .error (.invalid (.freeLength y.length p.free))

end Projection

end Minima
