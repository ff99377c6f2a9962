import Minima.Proofs.Ordered

/-!
# Lengths in rounded arithmetic

Whatever is lost in rounding, the length of a vector is not negative unless it
is undefined.
-/

namespace Minima

open OrderedScalar

variable {α : Type} [Scalar α] [OrderedScalar α]

namespace GuardedSums

structure Units (s : GuardedSums α) : Prop where
  largest_nonneg : 0 ≤ s.largest
  smallest_nonneg : 0 ≤ s.smallest

theorem Units.add {s : GuardedSums α} (h : s.Units) (limit x : α) : (s.add limit x).Units := by
  unfold GuardedSums.add
  dsimp only
  split
  · exact ⟨h.largest_nonneg, h.smallest_nonneg⟩
  split
  · split
    · rename_i hlt
      exact ⟨h.largest_nonneg, le_trans h.smallest_nonneg (le_of_lt hlt)⟩
    split
    · exact h
    · exact ⟨h.largest_nonneg, h.smallest_nonneg⟩
  split
  · rename_i hlt
    exact ⟨le_trans h.largest_nonneg (le_of_lt hlt), h.smallest_nonneg⟩
  · exact ⟨h.largest_nonneg, h.smallest_nonneg⟩

theorem Units.foldl {s : GuardedSums α} (h : s.Units) (limit : α) (v : Vec α) :
    (v.foldl (GuardedSums.add limit) s).Units := by
  induction v generalizing s with
  | nil => exact h
  | cons x v ih => exact ih (h.add limit x)

private theorem mul_sqrt_nonneg {a b : α} (ha : 0 ≤ a)
    (h : a * Scalar.sqrt b ≤ a * Scalar.sqrt b) : 0 ≤ a * Scalar.sqrt b :=
  mul_nonneg ha (sqrt_nonneg (le_refl_of_mul h).2) h

theorem Units.root_nonneg {s : GuardedSums α} (hs : s.Units) :
    s.root ≤ s.root → 0 ≤ s.root := by
  unfold root
  split
  · exact mul_sqrt_nonneg hs.largest_nonneg
  split
  · split
    · exact sqrt_nonneg
    · exact sqrt_nonneg
  · exact mul_sqrt_nonneg hs.smallest_nonneg

end GuardedSums

theorem Norm.length_nonneg (norm : Norm) {v : Vec α} (h : norm.length v ≤ norm.length v) :
    0 ≤ norm.length v := by
  cases norm with
  | plain => exact sqrt_nonneg h
  | guarded =>
      have hunits : GuardedSums.Units (⟨0, 0, 0, 0, 0⟩ : GuardedSums α) :=
        ⟨zero_le_zero, zero_le_zero⟩
      exact (hunits.foldl _ v).root_nonneg h

end Minima
