import Minima.Annealing
import Minima.Proofs.Simplex.Ranking
import Minima.Proofs.Zero

/-!
# Ranking noisy values

A pass ranks its vertices by one walk over the noisy values, and the place of the lowest is one
of the places, whatever the values are.  Of defined values the extremes are found at two
different places.  Noise that changes no value changes no ranking.
-/

namespace Minima.Annealing.NoisyRanking

variable {α : Type} [Scalar α] {noisy : List α} {r : NoisyRanking α} {j : Nat}

/-- What holds of the ranking of the first two values, and still after each further one, holds of
the ranking of all. -/
theorem of_induction {motive : Nat → NoisyRanking α → Prop} (hlength : 2 ≤ noisy.length)
    (hfalling : noisy.getD 1 0 < noisy.getD 0 0 →
      motive 2 ⟨1, 0, noisy.getD 1 0, noisy.getD 0 0, noisy.getD 1 0⟩)
    (hrising : ¬ noisy.getD 1 0 < noisy.getD 0 0 →
      motive 2 ⟨0, 1, noisy.getD 0 0, noisy.getD 1 0, noisy.getD 0 0⟩)
    (hadd : ∀ j r, j < noisy.length → motive j r → motive (j + 1) (r.add j (noisy.getD j 0))) :
    motive noisy.length (.of noisy) := by
  have hwalk (more j : Nat) (r : NoisyRanking α) (hmore : j + more = noisy.length)
      (h : motive j r) :
      motive noisy.length ((noisy.zipIdx.drop j).foldl (fun r p => r.add p.2 p.1) r) := by
    induction more generalizing j r with
    | zero =>
        rw [List.drop_eq_nil_of_le (by simp; omega), ← hmore]
        exact h
    | succ more ih =>
        have hj : j < noisy.length := by omega
        have hnext := hadd j r hj h
        rw [List.getD_eq_getElem _ _ hj] at hnext
        rw [List.drop_eq_getElem_cons (by simpa using hj), List.foldl_cons]
        exact ih (j + 1) _ (by omega) (by simpa using hnext)
  refine hwalk (noisy.length - 2) 2 _ (by omega) ?_
  split
  · exact hfalling ‹_›
  · exact hrising ‹_›

theorem lowest_add_lt (h : r.lowest < j) (noisy : α) : (r.add j noisy).lowest < j + 1 := by
  unfold add
  grind

theorem lowest_of_lt (hlength : 2 ≤ noisy.length) : (of noisy).lowest < noisy.length :=
  of_induction (motive := fun j r => r.lowest < j) hlength (fun _ => Nat.one_lt_two)
    (fun _ => Nat.zero_lt_two) fun _ _ _ h => lowest_add_lt h _

def addHigh (r : NoisyRanking α) (i : Nat) (noisy : α) : NoisyRanking α :=
  if r.highestNoisy < noisy then
    { r with nextHighestNoisy := r.highestNoisy, highest := i, highestNoisy := noisy }
  else if r.nextHighestNoisy < noisy then { r with nextHighestNoisy := noisy }
  else r

theorem add_eq (r : NoisyRanking α) (i : Nat) (noisy : α) :
    r.add i noisy = addHigh
      (if noisy ≤ r.lowestNoisy then { r with lowest := i, lowestNoisy := noisy } else r) i noisy :=
  rfl

/-- What a ranking says once it has taken in the values before position `j`. -/
structure Ranks (values : List α) (j : Nat) (r : NoisyRanking α) : Prop where
  lowest_lt : r.lowest < j
  highest_lt : r.highest < j
  lowest_ne : r.lowest ≠ r.highest
  lowest_eq : values.getD r.lowest 0 = r.lowestNoisy
  highest_eq : values.getD r.highest 0 = r.highestNoisy
  lowest_le : ∀ k < j, r.lowestNoisy ≤ values.getD k 0
  le_highest : ∀ k < j, values.getD k 0 ≤ r.highestNoisy

variable {values : List α} {r' : NoisyRanking α}

theorem Ranks.lowest_le_highest (h : Ranks values j r) : r.lowestNoisy ≤ r.highestNoisy := by
  rw [← h.highest_eq]
  exact h.lowest_le _ h.highest_lt

theorem Ranks.lowest_le_of_mem (h : Ranks values values.length r) {v : α} (hv : v ∈ values) :
    r.lowestNoisy ≤ v := by
  obtain ⟨k, hk, rfl⟩ := List.getElem_of_mem hv
  rw [← List.getD_eq_getElem _ 0 hk]
  exact h.lowest_le k hk

theorem Ranks.addHigh_of_not_lt {value : α} (h : Ranks values j r) (i : Nat)
    (hnot : ¬ r.highestNoisy < value) : Ranks values j (r.addHigh i value) := by
  unfold addHigh
  rw [if_neg hnot]
  split
  · exact { h with }
  · exact h

theorem forall_lt_succ {p : Nat → Prop} (h : ∀ k < j, p k) (hj : p j) : ∀ k < j + 1, p k := by
  intro k hk
  rcases Nat.lt_succ_iff_lt_or_eq.mp hk with hbefore | rfl
  · exact h k hbefore
  · exact hj

section Order

variable [OrderedScalar α]

open OrderedScalar

theorem Ranks.add (hdefined : ∀ v ∈ values, v ≤ v) (h : Ranks values j r)
    (hj : j < values.length) : Ranks values (j + 1) (r.add j (values.getD j 0)) := by
  have hvalue : values.getD j 0 ≤ values.getD j 0 := hdefined _ (Simplex.getD_mem hj)
  have hle := h.lowest_le_highest
  rw [add_eq]
  by_cases hlow : values.getD j 0 ≤ r.lowestNoisy
  · -- A value as low as the lowest is not above the highest.
    have hhigh : values.getD j 0 ≤ r.highestNoisy := le_trans hlow hle
    rw [if_pos hlow]
    refine addHigh_of_not_lt ?_ j fun hlt => not_le_of_lt hlt hhigh
    exact {
      lowest_lt := Nat.lt_succ_self j
      highest_lt := Nat.lt_succ_of_lt h.highest_lt
      lowest_ne := h.highest_lt.ne'
      lowest_eq := rfl
      highest_eq := h.highest_eq
      lowest_le := forall_lt_succ (fun k hk => le_trans hlow (h.lowest_le k hk)) hvalue
      le_highest := forall_lt_succ h.le_highest hhigh }
  rw [if_neg hlow]
  have hlowest : ∀ k < j + 1, r.lowestNoisy ≤ values.getD k 0 :=
    forall_lt_succ h.lowest_le ((le_total hvalue (le_refl_left hle)).resolve_left hlow)
  by_cases hhigher : r.highestNoisy < values.getD j 0
  · unfold addHigh
    rw [if_pos hhigher]
    exact {
      lowest_lt := Nat.lt_succ_of_lt h.lowest_lt
      highest_lt := Nat.lt_succ_self j
      lowest_ne := h.lowest_lt.ne
      lowest_eq := h.lowest_eq
      highest_eq := rfl
      lowest_le := hlowest
      le_highest := forall_lt_succ
        (fun k hk => le_trans (h.le_highest k hk) (le_of_lt hhigher)) hvalue }
  · have hhigh := le_of_not_lt (le_refl_right hle) hvalue hhigher
    refine addHigh_of_not_lt ?_ j hhigher
    exact { h with
      lowest_lt := Nat.lt_succ_of_lt h.lowest_lt
      highest_lt := Nat.lt_succ_of_lt h.highest_lt
      lowest_le := hlowest
      le_highest := forall_lt_succ h.le_highest hhigh }

theorem ranks_of (hdefined : ∀ v ∈ values, v ≤ v) (hlength : 2 ≤ values.length) :
    Ranks values values.length (of values) := by
  have hfirst : values.getD 0 0 ≤ values.getD 0 0 := hdefined _ (Simplex.getD_mem (by omega))
  have hsecond : values.getD 1 0 ≤ values.getD 1 0 := hdefined _ (Simplex.getD_mem hlength)
  have htwo {p : Nat → Prop} (h₀ : p 0) (h₁ : p 1) : ∀ k < 2, p k :=
    forall_lt_succ (forall_lt_succ (by omega) h₀) h₁
  refine of_induction (motive := Ranks values) hlength (fun hfalls => ?_) (fun hrises => ?_)
    fun j r hj h => h.add hdefined hj
  · exact ⟨Nat.one_lt_two, Nat.zero_lt_two, Nat.one_ne_zero, rfl, rfl,
      htwo (le_of_lt hfalls) hsecond, htwo hfirst (le_of_lt hfalls)⟩
  · have hle := le_of_not_lt hsecond hfirst hrises
    exact ⟨Nat.zero_lt_two, Nat.one_lt_two, Nat.zero_ne_one, rfl, rfl,
      htwo hfirst hle, htwo hle hsecond⟩

end Order

/-! ## Noise that changes no value -/

structure Same (r r' : NoisyRanking α) : Prop where
  lowest_eq : r.lowest = r'.lowest
  highest_eq : r.highest = r'.highest
  lowestNoisy : Scalar.same r.lowestNoisy r'.lowestNoisy = true
  highestNoisy : Scalar.same r.highestNoisy r'.highestNoisy = true
  nextHighestNoisy : Scalar.same r.nextHighestNoisy r'.nextHighestNoisy = true

variable [OrderedScalar α]

theorem Same.addHigh {raised value : α} (h : Same r r') (hvalue : Scalar.same raised value = true)
    (i : Nat) : Same (r.addHigh i raised) (r'.addHigh i value) := by
  unfold NoisyRanking.addHigh
  simp only [same_lt_iff h.highestNoisy hvalue, same_lt_iff h.nextHighestNoisy hvalue]
  split
  · exact { h with
      highest_eq := rfl, highestNoisy := hvalue, nextHighestNoisy := h.highestNoisy }
  split
  · exact { h with nextHighestNoisy := hvalue }
  · exact h

theorem Same.add {raised value : α} (h : Same r r') (hvalue : Scalar.same raised value = true)
    (i : Nat) : Same (r.add i raised) (r'.add i value) := by
  rw [add_eq, add_eq]
  refine Same.addHigh ?_ hvalue i
  simp only [same_le_iff hvalue h.lowestNoisy]
  split
  · exact { h with lowest_eq := rfl, lowestNoisy := hvalue }
  · exact h

theorem Same.foldl (hsame : List.Forall₂ (fun a b => Scalar.same a b = true) noisy values)
    (h : Same r r') (i : Nat) :
    Same ((noisy.zipIdx i).foldl (fun r (a, i) => r.add i a) r)
      ((values.zipIdx i).foldl (fun r (a, i) => r.add i a) r') := by
  induction hsame generalizing r r' i with
  | nil => exact h
  | cons hvalue _ ih => exact ih (h.add hvalue i) (i + 1)

theorem same_of (hsame : List.Forall₂ (fun a b => Scalar.same a b = true) noisy values)
    (hlength : 2 ≤ values.length) : Same (of noisy) (of values) := by
  rcases hsame with _ | ⟨hfirst, _ | ⟨hsecond, hrest⟩⟩
  · contradiction
  · contradiction
  unfold of
  refine Same.foldl hrest ?_ 2
  simp only [List.getD_cons_zero, List.getD_cons_succ, same_lt_iff hsecond hfirst]
  split
  · exact ⟨rfl, rfl, hsecond, hfirst, hsecond⟩
  · exact ⟨rfl, rfl, hfirst, hsecond, hfirst⟩

end Minima.Annealing.NoisyRanking
