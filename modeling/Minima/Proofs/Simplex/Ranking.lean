import Mathlib.Data.List.GetD
import Minima.Proofs.Ordered
import Minima.Simplex

/-!
# Ranking the values of a simplex

An iteration ranks the values once, before its moves.  Of defined values the
lowest is found, and the highest and the second highest position are different
ones.
-/

namespace Minima.Simplex

variable {α : Type} [Scalar α] {values : List α} {r : Ranking} {i j : Nat}

structure Least (i : Nat) (values : List α) : Prop where
  lt_length : i < values.length
  le {v : α} : v ∈ values → values.getD i 0 ≤ v

theorem getD_mem {β : Type} {l : List β} {d : β} (h : i < l.length) : l.getD i d ∈ l := by
  rw [List.getD_eq_getElem _ _ h]
  exact List.getElem_mem h

theorem Least.of_getD (hi : i < values.length)
    (h : ∀ k < values.length, values.getD i 0 ≤ values.getD k 0) : Least i values where
  lt_length := hi
  le := by
    intro v hv
    obtain ⟨k, hk, rfl⟩ := List.getElem_of_mem hv
    rw [← List.getD_eq_getElem _ 0 hk]
    exact h k hk

structure Ranks (values : List α) (j : Nat) (r : Ranking) : Prop where
  lowest_lt : r.lowest < values.length
  lowest_le : ∀ k < j, values.getD r.lowest 0 ≤ values.getD k 0
  highest_lt : r.highest < values.length
  nextHighest_lt : r.nextHighest < values.length
  nextHighest_ne : r.nextHighest ≠ r.highest

theorem Ranks.least (h : Ranks values values.length r) : Least r.lowest values :=
  .of_getD h.lowest_lt h.lowest_le

theorem ranks_start (hdefined : ∀ v ∈ values, v ≤ v) (hlength : 1 < values.length) :
    Ranks values 1 (if values.getD 0 0 < values.getD 1 0 then ⟨0, 1, 0⟩ else ⟨0, 0, 1⟩) := by
  have hpos : 0 < values.length := Nat.lt_of_succ_lt hlength
  have hzero : ∀ k < 1, values.getD 0 0 ≤ values.getD k 0 := by
    intro k hk
    rw [Nat.lt_one_iff.mp hk]
    exact hdefined _ (getD_mem hpos)
  split
  · exact ⟨hpos, hzero, hlength, hpos, by decide⟩
  · exact ⟨hpos, hzero, hpos, hlength, by decide⟩

variable [OrderedScalar α]

open OrderedScalar

theorem Ranks.addHigh (h : Ranks values j r) (hi : i < values.length) :
    Ranks values j (r.addHigh values i) := by
  unfold Ranking.addHigh
  dsimp only
  split
  · rename_i hhigher
    have hne : r.highest ≠ i := fun heq => ne_of_lt hhigher (by rw [heq])
    exact { h with highest_lt := hi, nextHighest_lt := h.highest_lt, nextHighest_ne := hne }
  split
  · rename_i hhigher
    exact { h with nextHighest_lt := hi, nextHighest_ne := hhigher.2 }
  · exact h

theorem Ranks.addLow (hdefined : ∀ v ∈ values, v ≤ v) (h : Ranks values j r)
    (hj : j < values.length) : Ranks values (j + 1) (r.addLow values j) := by
  have hvalue : values.getD j 0 ≤ values.getD j 0 := hdefined _ (getD_mem hj)
  have hlowest : values.getD r.lowest 0 ≤ values.getD r.lowest 0 :=
    hdefined _ (getD_mem h.lowest_lt)
  unfold Ranking.addLow
  split
  · rename_i hlower
    refine { h with lowest_lt := hj, lowest_le := fun k hk => ?_ }
    rcases Nat.lt_succ_iff_lt_or_eq.mp hk with hbefore | rfl
    · exact le_trans (le_of_lt hlower) (h.lowest_le k hbefore)
    · exact hvalue
  · rename_i hnot
    refine { h with lowest_le := fun k hk => ?_ }
    rcases Nat.lt_succ_iff_lt_or_eq.mp hk with hbefore | rfl
    · exact h.lowest_le k hbefore
    · exact le_of_not_lt hvalue hlowest hnot

theorem Ranks.foldl (hdefined : ∀ v ∈ values, v ≤ v) (more : Nat) (h : Ranks values j r)
    (hmore : j + more = values.length) :
    Ranks values values.length ((List.range' j more).foldl (Ranking.add values) r) := by
  induction more generalizing j r with
  | zero =>
      rw [← hmore]
      exact h
  | succ more ih =>
      have hj : j < values.length := by omega
      exact ih ((h.addHigh hj).addLow hdefined hj) (by omega)

theorem ranks_ranking (hdefined : ∀ v ∈ values, v ≤ v) (hlength : 1 < values.length) :
    Ranks values values.length (ranking values) :=
  (ranks_start hdefined hlength).foldl hdefined _ (by omega)

end Minima.Simplex
