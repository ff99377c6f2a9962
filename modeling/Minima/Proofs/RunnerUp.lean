import Minima.Proofs.Annealing.Ranking
import Minima.Proofs.Double

/-!
# The second largest value

Whether the simplex is reflected or contracted depends on the second largest of its values.  Both
methods find it in the walk that finds the largest: a value that overtakes the largest leaves it
behind as the second largest, and equal values count as often as they occur.
-/

namespace Minima

variable {α : Type} [Scalar α] {values : List α} {j highest : Nat} {next : α}

/-- Of the first `j` values the one at `highest` is the largest, and `next` is the largest of the
others. -/
structure Leaders (values : List α) (j highest : Nat) (next : α) : Prop where
  highest_lt : highest < j
  le_highest : ∀ k < j, values.getD k 0 ≤ values.getD highest 0
  next_eq : ∃ k < j, k ≠ highest ∧ values.getD k 0 = next
  le_next : ∀ k < j, k ≠ highest → values.getD k 0 ≤ next

theorem Leaders.next_le_next (h : Leaders values j highest next) : next ≤ next := by
  obtain ⟨k, hk, hne, rfl⟩ := h.next_eq
  exact h.le_next k hk hne

section Order

open OrderedScalar Annealing.NoisyRanking

variable [OrderedScalar α]

/-! ## Two values, and one more -/

theorem leaders_rising (h : values.getD 0 0 ≤ values.getD 1 0) :
    Leaders values 2 1 (values.getD 0 0) where
  highest_lt := Nat.one_lt_two
  le_highest := forall_lt_succ (forall_lt_succ (by omega) h) (le_refl_right h)
  next_eq := ⟨0, Nat.zero_lt_two, Nat.zero_ne_one, rfl⟩
  le_next := forall_lt_succ (forall_lt_succ (by omega) fun _ => le_refl_left h)
    fun hne => absurd rfl hne

theorem leaders_falling (h : values.getD 1 0 ≤ values.getD 0 0) :
    Leaders values 2 0 (values.getD 1 0) where
  highest_lt := Nat.zero_lt_two
  le_highest := forall_lt_succ (forall_lt_succ (by omega) (le_refl_right h)) h
  next_eq := ⟨1, Nat.one_lt_two, Nat.one_ne_zero, rfl⟩
  le_next := forall_lt_succ (forall_lt_succ (by omega) fun hne => absurd rfl hne)
    fun _ => le_refl_left h

theorem Leaders.overtaken (h : Leaders values j highest next)
    (hlt : values.getD highest 0 < values.getD j 0) :
    Leaders values (j + 1) j (values.getD highest 0) where
  highest_lt := Nat.lt_succ_self j
  le_highest := forall_lt_succ (fun k hk => le_trans (h.le_highest k hk) (le_of_lt hlt))
    (le_refl_right (le_of_lt hlt))
  next_eq := ⟨highest, Nat.lt_succ_of_lt h.highest_lt, h.highest_lt.ne, rfl⟩
  le_next k hk hne := h.le_highest k (Nat.lt_of_le_of_ne (Nat.le_of_lt_succ hk) hne)

theorem Leaders.raised (h : Leaders values j highest next)
    (hle : values.getD j 0 ≤ values.getD highest 0) (hlt : next < values.getD j 0) :
    Leaders values (j + 1) highest (values.getD j 0) where
  highest_lt := Nat.lt_succ_of_lt h.highest_lt
  le_highest := forall_lt_succ h.le_highest hle
  next_eq := ⟨j, Nat.lt_succ_self j, h.highest_lt.ne', rfl⟩
  le_next := forall_lt_succ (fun k hk hne => le_trans (h.le_next k hk hne) (le_of_lt hlt))
    fun _ => le_refl_right (le_of_lt hlt)

omit [OrderedScalar α] in
theorem Leaders.kept (h : Leaders values j highest next)
    (hle : values.getD j 0 ≤ values.getD highest 0) (hnext : values.getD j 0 ≤ next) :
    Leaders values (j + 1) highest next where
  highest_lt := Nat.lt_succ_of_lt h.highest_lt
  le_highest := forall_lt_succ h.le_highest hle
  next_eq := by
    obtain ⟨k, hk, hne, heq⟩ := h.next_eq
    exact ⟨k, Nat.lt_succ_of_lt hk, hne, heq⟩
  le_next := forall_lt_succ h.le_next fun _ => hnext

/-! ## The ranking of a simplex -/

namespace Simplex

variable {r : Ranking}

abbrev Ranking.Lead (r : Ranking) (values : List α) (j : Nat) : Prop :=
  Leaders values j r.highest (values.getD r.nextHighest 0)

omit [OrderedScalar α] in
theorem highest_addLow (values : List α) (r : Ranking) (i : Nat) :
    (r.addLow values i).highest = r.highest := by
  unfold Ranking.addLow
  split <;> rfl

omit [OrderedScalar α] in
theorem nextHighest_addLow (values : List α) (r : Ranking) (i : Nat) :
    (r.addLow values i).nextHighest = r.nextHighest := by
  unfold Ranking.addLow
  split <;> rfl

theorem addHigh_of_lt (h : r.Lead values j) {i : Nat} (hi : i < j) : r.addHigh values i = r := by
  have hhigh : ¬ values.getD r.highest 0 < values.getD i 0 :=
    fun hlt => not_le_of_lt hlt (h.le_highest i hi)
  have hnext : ¬ (values.getD r.nextHighest 0 < values.getD i 0 ∧ i ≠ r.highest) :=
    fun ⟨hlt, hne⟩ => not_le_of_lt hlt (h.le_next i hi hne)
  unfold Ranking.addHigh
  dsimp only
  rw [if_neg hhigh, if_neg hnext]

theorem lead_addHigh (hdefined : ∀ v ∈ values, v ≤ v) (h : r.Lead values j)
    (hj : j < values.length) : (r.addHigh values j).Lead values (j + 1) := by
  have hvalue : values.getD j 0 ≤ values.getD j 0 := hdefined _ (getD_mem hj)
  have hhighest := h.le_highest r.highest h.highest_lt
  unfold Ranking.addHigh
  dsimp only
  split
  · exact h.overtaken ‹_›
  rename_i hnot
  have hle := le_of_not_lt hhighest hvalue hnot
  split
  · rename_i hraised
    exact h.raised hle hraised.1
  · rename_i hnot
    refine h.kept hle (le_of_not_lt h.next_le_next hvalue fun hlt => hnot ⟨hlt, ?_⟩)
    exact h.highest_lt.ne'

theorem lead_add (hdefined : ∀ v ∈ values, v ≤ v) (h : r.Lead values j)
    (hj : j < values.length) : (r.add values j).Lead values (j + 1) := by
  unfold Ranking.add
  rw [Ranking.Lead, highest_addLow, nextHighest_addLow]
  exact lead_addHigh hdefined h hj

theorem lead_foldl (hdefined : ∀ v ∈ values, v ≤ v) (more : Nat) (h : r.Lead values j)
    (hmore : j + more = values.length) :
    ((List.range' j more).foldl (Ranking.add values) r).Lead values values.length := by
  induction more generalizing j r with
  | zero =>
      rw [← hmore]
      exact h
  | succ more ih => exact ih (lead_add hdefined h (by omega)) (by omega)

theorem lead_start (hdefined : ∀ v ∈ values, v ≤ v) (hlength : 2 ≤ values.length) :
    Ranking.Lead (if values.getD 0 0 < values.getD 1 0 then ⟨0, 1, 0⟩ else ⟨0, 0, 1⟩) values 2 := by
  split
  · rename_i hrises
    exact leaders_rising (le_of_lt hrises)
  · rename_i hnot
    exact leaders_falling
      (le_of_not_lt (hdefined _ (getD_mem (by omega))) (hdefined _ (getD_mem hlength)) hnot)

theorem lead_ranking (hdefined : ∀ v ∈ values, v ≤ v) (hlength : 2 ≤ values.length) :
    (ranking values).Lead values values.length := by
  have hstart := lead_start hdefined hlength
  obtain ⟨more, hmore⟩ : ∃ more, values.length - 1 = more + 1 := ⟨values.length - 2, by omega⟩
  unfold ranking
  dsimp only
  rw [hmore, List.range'_succ, List.foldl_cons]
  refine lead_foldl hdefined more ?_ (by omega)
  rw [Ranking.add, Ranking.Lead, highest_addLow, nextHighest_addLow,
    addHigh_of_lt hstart Nat.one_lt_two]
  exact hstart

end Simplex

/-! ## The ranking of noisy values -/

namespace Annealing.NoisyRanking

variable {r : NoisyRanking α}

theorem leaders_addHigh (hdefined : ∀ v ∈ values, v ≤ v)
    (h : Leaders values j r.highest r.nextHighestNoisy)
    (heq : values.getD r.highest 0 = r.highestNoisy) (hj : j < values.length) :
    Leaders values (j + 1) (r.addHigh j (values.getD j 0)).highest
      (r.addHigh j (values.getD j 0)).nextHighestNoisy := by
  have hvalue : values.getD j 0 ≤ values.getD j 0 := hdefined _ (Simplex.getD_mem hj)
  have hhighest := h.le_highest r.highest h.highest_lt
  unfold addHigh
  rw [← heq]
  split
  · exact h.overtaken ‹_›
  rename_i hnot
  have hle := le_of_not_lt hhighest hvalue hnot
  split
  · exact h.raised hle ‹_›
  · exact h.kept hle (le_of_not_lt h.next_le_next hvalue ‹_›)

theorem leaders_add (hdefined : ∀ v ∈ values, v ≤ v)
    (h : Leaders values j r.highest r.nextHighestNoisy)
    (heq : values.getD r.highest 0 = r.highestNoisy) (hj : j < values.length) :
    Leaders values (j + 1) (r.add j (values.getD j 0)).highest
      (r.add j (values.getD j 0)).nextHighestNoisy := by
  rw [add_eq]
  split
  · exact leaders_addHigh (r := { r with lowest := j, lowestNoisy := _ }) hdefined h heq hj
  · exact leaders_addHigh hdefined h heq hj

omit [OrderedScalar α] in
theorem highest_add (heq : values.getD r.highest 0 = r.highestNoisy) (j : Nat) :
    values.getD (r.add j (values.getD j 0)).highest 0 =
      (r.add j (values.getD j 0)).highestNoisy := by
  unfold add
  grind

theorem leaders_of (hdefined : ∀ v ∈ values, v ≤ v) (hlength : 2 ≤ values.length) :
    Leaders values values.length (of values).highest (of values).nextHighestNoisy := by
  have hboth := of_induction
    (motive := fun j r => values.getD r.highest 0 = r.highestNoisy ∧
      Leaders values j r.highest r.nextHighestNoisy) hlength
    (fun hfalls => ⟨rfl, leaders_falling (le_of_lt hfalls)⟩)
    (fun hnot => ⟨rfl, leaders_rising (le_of_not_lt (hdefined _ (Simplex.getD_mem hlength))
      (hdefined _ (Simplex.getD_mem (by omega))) hnot)⟩)
    fun j r hj h => ⟨highest_add h.1 j, leaders_add hdefined h.2 h.1 hj⟩
  exact hboth.2

end Annealing.NoisyRanking

/-! ## Both rankings -/

/-- Of at least two defined values a simplex finds the places of a lowest one, of a highest one and
of the highest of the others.  Of noisy values annealing finds a lowest and a highest one, at two
places, and the value of the highest of the others. -/
theorem rankings_find_extremes (hlength : 2 ≤ values.length)
    (hdefined : ∀ v ∈ values, Scalar.isUndefined v = false) :
    (∃ l h s, Simplex.ranking values = ⟨l, h, s⟩ ∧ h ≠ s ∧
      l < values.length ∧ h < values.length ∧ s < values.length ∧
      (∀ v ∈ values, values.getD l 0 ≤ v ∧ v ≤ values.getD h 0) ∧
      ∀ k < values.length, k ≠ h → values.getD k 0 ≤ values.getD s 0) ∧
    ∃ l h next, Annealing.NoisyRanking.of values =
        ⟨l, h, values.getD l 0, values.getD h 0, next⟩ ∧ l ≠ h ∧
      l < values.length ∧ h < values.length ∧
      (∀ v ∈ values, values.getD l 0 ≤ v ∧ v ≤ values.getD h 0) ∧
      (∃ s < values.length, s ≠ h ∧ values.getD s 0 = next) ∧
      ∀ k < values.length, k ≠ h → values.getD k 0 ≤ next := by
  have hdefined' : ∀ v ∈ values, v ≤ v := by simpa [Scalar.isUndefined] using hdefined
  have hmem {p : α → Prop} (h : ∀ k < values.length, p (values.getD k 0)) : ∀ v ∈ values, p v := by
    intro v hv
    obtain ⟨k, hk, rfl⟩ := List.getElem_of_mem hv
    rw [← List.getD_eq_getElem _ 0 hk]
    exact h k hk
  constructor
  · have hranks := Simplex.ranks_ranking hdefined' hlength
    have hlead := Simplex.lead_ranking hdefined' hlength
    exact ⟨_, _, _, rfl, hranks.nextHighest_ne.symm, hranks.lowest_lt, hranks.highest_lt,
      hranks.nextHighest_lt, hmem fun k hk => ⟨hranks.lowest_le k hk, hlead.le_highest k hk⟩,
      hlead.le_next⟩
  · have hranks := Annealing.NoisyRanking.ranks_of hdefined' hlength
    have hlead := Annealing.NoisyRanking.leaders_of hdefined' hlength
    refine ⟨_, _, _, ?_, hranks.lowest_ne, hranks.lowest_lt, hranks.highest_lt,
      hmem fun k hk => ⟨?_, hlead.le_highest k hk⟩, hlead.next_eq, hlead.le_next⟩
    · rw [hranks.lowest_eq, hranks.highest_eq]
    · rw [hranks.lowest_eq]
      exact hranks.lowest_le k hk

end Order

def tied : List Float := [2, 3, 1, 3]

theorem rankings_find_extremes_tied :
    2 ≤ tied.length ∧ (∀ v ∈ tied, Scalar.isUndefined v = false) ∧
      (Simplex.ranking tied).highest ≠ (Simplex.ranking tied).nextHighest ∧
      tied.getD (Simplex.ranking tied).nextHighest 0 = 3 ∧
      3 ≤ (Annealing.NoisyRanking.of tied).nextHighestNoisy := by
  have hlength : 2 ≤ tied.length := by decide
  have hdefined : ∀ v ∈ tied, Scalar.isUndefined v = false := by decide +kernel
  obtain ⟨⟨l, h, s, hsimplex, hne, -⟩, _, highest, next, hannealing, -, -, -, -, -, hnext⟩ :=
    rankings_find_extremes hlength hdefined
  have hhighest : highest = 1 := by
    have : (Annealing.NoisyRanking.of tied).highest = 1 := by decide +kernel
    rwa [hannealing] at this
  have hle : tied.getD 3 0 ≤ next := hnext 3 (by decide) (by omega)
  refine ⟨hlength, hdefined, ?_, by decide +kernel, ?_⟩
  · rw [hsimplex]
    exact hne
  · rw [hannealing]
    exact hle

end Minima
