import Minima.Descent.Direction

/-!
# Vectors of equal length

The combinations of two vectors that a strategy makes are defined as soon as the
lengths agree.
-/

namespace Minima

variable {α : Type} {m n : Nat}

theorem requireSame_eq_ok (h : m = n) : (requireSame m n : Checked α Unit) = .ok () := if_pos h

namespace Vec

variable [Scalar α] {a b : Vec α}

theorem sub?_eq_ok (h : a.length = b.length) : sub? a b = .ok (sub a b) := by
  rw [sub?, requireSame_eq_ok h]
  rfl

theorem laneDot?_eq_ok (h : a.length = b.length) : laneDot? a b = .ok (laneDot a b) := by
  rw [laneDot?, requireSame_eq_ok h]
  rfl

end Vec

end Minima
