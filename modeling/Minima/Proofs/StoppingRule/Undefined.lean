import Minima.Proofs.Double
import Minima.Proofs.StoppingRule.History

/-!
# Tests of undefined numbers

A test for convergence fires unless a comparison says that what it measures reaches a tolerance.
If both are defined the measure is then below the tolerance.  But no comparison holds of an
undefined number, which therefore passes for one below every tolerance: a stationary test counts it
as no change, and the tests of the accuracy and of the gradient fire at once.
-/

namespace Minima.StoppingRule

variable {α : Type}

def Test.numbers : Test α → List α
  | point old new | value old new => [old, new]
  | accuracy v _ => [v]
  | gradient norm => [norm]
  | budget _ | verdict _ _ => []

variable [Scalar α]

/-- A number that the test is given is undefined. -/
def Test.IsBlind (t : Test α) : Prop := ∃ a ∈ t.numbers, Scalar.isUndefined a = true

/-- For the tests for convergence: the tolerance, and what is compared with it. -/
def Test.comparison (c : StoppingRule α) : Test α → Option (α × α)
  | point old new => some (c.rootEpsilon, Scalar.abs (new - old))
  | value old new => some (c.functionEpsilon, Scalar.abs (new - old))
  | accuracy v _ => some (c.functionEpsilon, v)
  | gradient norm => some (c.gradientEpsilon, norm)
  | budget _ | verdict _ _ => none

omit [Scalar α] in
/-- Whether a test for convergence fires where its tolerance is not reached: a stationary one only
at the end of its budget, the one of the accuracy only for a non-negative objective. -/
def Test.Armed (c : StoppingRule α) : Test α → Prop
  | point _ _ | value _ _ => c.stationaryBudget ≤ c.streak
  | accuracy _ nonNegative => nonNegative = true
  | gradient _ | budget _ | verdict _ _ => True

/-- Of the tests of a list, made up to the first that fires, this one is given an undefined number
and fires. -/
def FiresBlind (tests : List (Test α)) (c : StoppingRule α) : Prop :=
  ∃ t, (t, true) ∈ made tests c ∧ t.IsBlind

variable {c : StoppingRule α} {t : Test α} {tests : List (Test α)} {ε m : α}

/-! ## Single tests -/

theorem checkStationary_fires (c : StoppingRule α) (ε m : α) (t : Test α) :
    (c.checkStationary (decide (ε ≤ m)) t.outcome).1 = true ↔
      c.stationaryBudget ≤ c.streak ∧ ¬ ε ≤ m := by
  by_cases hle : ε ≤ m
  · simp [checkStationary, hle]
  · rw [decide_eq_false hle, checkStationary_fires_iff, Nat.lt_succ_iff]
    exact (and_iff_left hle).symm

theorem checkAccuracy_fires (c : StoppingRule α) (v : α) (nonNegative : Bool) :
    (c.checkAccuracy v nonNegative).1 = true ↔ nonNegative = true ∧ ¬ c.functionEpsilon ≤ v := by
  by_cases hle : c.functionEpsilon ≤ v
  · simp [checkAccuracy, hle]
  · cases nonNegative <;> simp [checkAccuracy, mark, Outcome.isTerminal, hle]

theorem checkGradient_fires (c : StoppingRule α) (norm : α) :
    (c.checkGradient norm).1 = true ↔ ¬ c.gradientEpsilon ≤ norm := by
  by_cases hle : c.gradientEpsilon ≤ norm
  · simp [checkGradient, hle]
  · simp [checkGradient, mark, Outcome.isTerminal, hle]

/-- A test for convergence fires unless its tolerance is reached. -/
theorem make_fires_iff_not_le (h : t.comparison c = some (ε, m)) :
    (t.make c).1 = true ↔ t.Armed c ∧ ¬ ε ≤ m := by
  cases t with
  | point old new =>
      obtain ⟨rfl, rfl⟩ := Prod.mk.inj (Option.some.inj h)
      exact checkStationary_fires c _ _ (.point old new)
  | value old new =>
      obtain ⟨rfl, rfl⟩ := Prod.mk.inj (Option.some.inj h)
      exact checkStationary_fires c _ _ (.value old new)
  | accuracy v nonNegative =>
      obtain ⟨rfl, rfl⟩ := Prod.mk.inj (Option.some.inj h)
      exact checkAccuracy_fires c v nonNegative
  | gradient norm =>
      obtain ⟨rfl, rfl⟩ := Prod.mk.inj (Option.some.inj h)
      exact (checkGradient_fires c norm).trans (and_iff_right trivial).symm
  | budget iteration => contradiction
  | verdict o isTerminal => contradiction

theorem make_fires_iff_lt [OrderedScalar α] (hε : Scalar.isUndefined ε = false)
    (h : t.comparison c = some (ε, m)) :
    (t.make c).1 = true ↔ t.Armed c ∧ (m < ε ∨ Scalar.isUndefined m = true) := by
  have hε : ε ≤ ε := by simpa [Scalar.isUndefined] using hε
  rw [make_fires_iff_not_le h]
  refine and_congr_right fun _ => ?_
  by_cases hm : m ≤ m
  · have hdefined : ¬ Scalar.isUndefined m = true := by simpa [Scalar.isUndefined] using hm
    rw [or_iff_left hdefined]
    exact ⟨OrderedScalar.lt_of_not_le hm hε, OrderedScalar.not_le_of_lt⟩
  · have hundefined : Scalar.isUndefined m = true := by simpa [Scalar.isUndefined] using hm
    exact iff_of_true (fun hle => hm (OrderedScalar.le_refl_right hle)) (.inr hundefined)

omit [Scalar α] in
theorem Test.succeeded_outcome (h : t.numbers ≠ []) : t.outcome.succeeded = true := by
  cases t with
  | budget iteration => exact absurd rfl h
  | verdict o isTerminal => exact absurd rfl h
  | _ => rfl

theorem Test.IsBlind.numbers_ne_nil (h : t.IsBlind) : t.numbers ≠ [] := by
  obtain ⟨a, ha, -⟩ := h
  exact List.ne_nil_of_mem ha

theorem outcome_make (h : (t.make c).1 = true) : (t.make c).2.outcome = t.outcome := by
  cases t with
  | budget iteration =>
      simp only [Test.make, checkMaxIterations] at h ⊢
      split at h
      · contradiction
      · rename_i hspent
        rw [if_neg hspent]
        rfl
  | point old new => exact (outcome_checkStationary c _ _).trans (if_pos h)
  | value old new => exact (outcome_checkStationary c _ _).trans (if_pos h)
  | accuracy v nonNegative =>
      simp only [Test.make, checkAccuracy] at h ⊢
      split at h
      · contradiction
      · rename_i hbelow
        rw [if_neg hbelow]
        rfl
  | gradient norm =>
      simp only [Test.make, checkGradient] at h ⊢
      split at h
      · contradiction
      · rename_i hbelow
        rw [if_neg hbelow]
        rfl
  | verdict o isTerminal => exact congrArg (·.2.outcome) (mark_outcome c (.verdict o isTerminal))

/-! ## Tests in order -/

theorem firesBlind_nil (c : StoppingRule α) : ¬ FiresBlind [] c := by
  rintro ⟨u, hu, -⟩
  cases hu

theorem firesBlind_cons (t : Test α) (tests : List (Test α)) (c : StoppingRule α) :
    FiresBlind (t :: tests) c ↔
      (t.make c).1 = true ∧ t.IsBlind ∨ (t.make c).1 = false ∧ FiresBlind tests (t.make c).2 := by
  rcases hmake : t.make c with ⟨_ | _, next⟩
  · simp [FiresBlind, made, hmake]
  · simp [FiresBlind, made, hmake]

theorem FiresBlind.succeeds (h : FiresBlind tests c) :
    (makeAll tests c).1 = true ∧ (makeAll tests c).2.outcome.succeeded = true := by
  induction tests generalizing c with
  | nil => exact absurd h (firesBlind_nil c)
  | cons t tests ih =>
      rcases hmake : t.make c with ⟨fired, next⟩
      rw [firesBlind_cons, hmake] at h
      rw [makeAll, hmake]
      rcases h with ⟨rfl, hblind⟩ | ⟨rfl, h⟩
      · have houtcome := outcome_make (t := t) (c := c) (by rw [hmake])
        rw [hmake] at houtcome
        refine ⟨rfl, ?_⟩
        rw [houtcome]
        exact Test.succeeded_outcome hblind.numbers_ne_nil
      · exact ih h

omit [Scalar α] in
theorem functionEpsilon_checkStationary (c : StoppingRule α) (changed : Bool) (o : Outcome) :
    (c.checkStationary changed o).2.functionEpsilon = c.functionEpsilon := by
  unfold checkStationary mark
  split
  · rfl
  split
  · rfl
  dsimp only
  split <;> rfl

theorem firesBlind_budget_cons (iteration : Nat) (tests : List (Test α)) (c : StoppingRule α) :
    FiresBlind (.budget iteration :: tests) c ↔
      iteration < c.maxIterations ∧ FiresBlind tests c := by
  have hsighted : ¬ (Test.budget iteration : Test α).IsBlind := fun h => h.numbers_ne_nil rfl
  rw [firesBlind_cons, Test.make, checkMaxIterations]
  by_cases hlt : iteration < c.maxIterations
  · simp [hlt]
  · simp [mark, Outcome.isTerminal, hlt, hsighted]

/-! ## Doubles -/

section doubles

variable {c : StoppingRule Float} {t : Test Float} {a b ε m : Float}

theorem isUndefined_iff : Scalar.isUndefined a = true ↔ ¬ Double.IsDefined a := by
  rw [Scalar.isUndefined, Bool.not_eq_true', decide_eq_false_iff_not, Double.le_iff]
  simp

theorem isDefined_of_abs (h : Double.IsDefined (Scalar.abs a)) : Double.IsDefined a := by
  have hunpack : (Float.abs a).toModel.unpack =
      Double.repacked (Float.Model.UnpackedFloat.abs a.toModel.unpack) := rfl
  intro hnan
  refine h (hunpack.trans ?_)
  rw [hnan]
  exact Double.repacked_notANumber

theorem Test.IsBlind.isUndefined (h : t.IsBlind) (hcomparison : t.comparison c = some (ε, m)) :
    Scalar.isUndefined m = true := by
  have hdifference {old new : Float}
      (h : ∃ a ∈ [old, new], Scalar.isUndefined a = true) :
      Scalar.isUndefined (Scalar.abs (new - old)) = true := by
    obtain ⟨a, ha, hundefined⟩ := h
    refine isUndefined_iff.mpr fun hdefined => isUndefined_iff.mp hundefined ?_
    obtain ⟨hnew, hold⟩ := Double.isDefined_of_sub (isDefined_of_abs hdefined)
    rcases List.mem_pair.mp ha with rfl | rfl
    · exact hold
    · exact hnew
  have hsingle {v : Float} (h : ∃ a ∈ [v], Scalar.isUndefined a = true) :
      Scalar.isUndefined v = true := by
    simpa using h
  cases t with
  | point old new =>
      obtain ⟨-, rfl⟩ := Prod.mk.inj (Option.some.inj hcomparison)
      exact hdifference h
  | value old new =>
      obtain ⟨-, rfl⟩ := Prod.mk.inj (Option.some.inj hcomparison)
      exact hdifference h
  | accuracy v nonNegative =>
      obtain ⟨-, rfl⟩ := Prod.mk.inj (Option.some.inj hcomparison)
      exact hsingle h
  | gradient norm =>
      obtain ⟨-, rfl⟩ := Prod.mk.inj (Option.some.inj hcomparison)
      exact hsingle h
  | budget iteration => contradiction
  | verdict o isTerminal => contradiction

theorem Test.IsBlind.exists_comparison (h : t.IsBlind) (c : StoppingRule Float) :
    ∃ ε m, t.comparison c = some (ε, m) := by
  cases t with
  | budget iteration => exact absurd rfl h.numbers_ne_nil
  | verdict o isTerminal => exact absurd rfl h.numbers_ne_nil
  | _ => exact ⟨_, _, rfl⟩

/-- A test that is given an undefined number fires whenever it can. -/
theorem Test.IsBlind.make_fires_iff (h : t.IsBlind) (c : StoppingRule Float) :
    (t.make c).1 = true ↔ t.Armed c := by
  obtain ⟨ε, m, hcomparison⟩ := h.exists_comparison c
  have hm := h.isUndefined hcomparison
  have hle : ¬ ε ≤ m := fun hle => isUndefined_iff.mp hm (Double.isDefined_of_le hle).2
  exact (make_fires_iff_not_le hcomparison).trans (and_iff_left hle)

theorem firesBlind_cons_armed (t : Test Float) (tests : List (Test Float))
    (c : StoppingRule Float) :
    FiresBlind (t :: tests) c ↔
      t.Armed c ∧ t.IsBlind ∨ (t.make c).1 = false ∧ FiresBlind tests (t.make c).2 := by
  rw [firesBlind_cons, and_congr_left fun h : t.IsBlind => h.make_fires_iff c]

theorem isBlind_value_iff {old new : Float} :
    (Test.value old new).IsBlind ↔
      Scalar.isUndefined old = true ∨ Scalar.isUndefined new = true := by
  simp [Test.IsBlind, Test.numbers]

theorem firesBlind_combined (c : StoppingRule Float) (iteration : Nat) (nonNegative : Bool)
    (old new gradientNorm : Float) :
    FiresBlind (Operation.combined iteration nonNegative old new gradientNorm).tests c ↔
      iteration < c.maxIterations ∧
        (c.stationaryBudget ≤ c.streak ∧
            (Scalar.isUndefined old = true ∨ Scalar.isUndefined new = true) ∨
          c.streak < c.stationaryBudget ∧ nonNegative = true ∧ Scalar.isUndefined new = true ∨
          (c.checkStationaryValue old new).1 = false ∧ (c.checkAccuracy new nonNegative).1 = false ∧
            Scalar.isUndefined gradientNorm = true) := by
  -- the accuracy is tested by the rule that has counted the value
  have haccuracy : ((c.checkStationaryValue old new).2.checkAccuracy new nonNegative).1 = false ↔
      (c.checkAccuracy new nonNegative).1 = false := by
    rw [← Bool.not_eq_true, ← Bool.not_eq_true, checkAccuracy_fires, checkAccuracy_fires,
      checkStationaryValue, functionEpsilon_checkStationary]
  have hvalue (hnew : Scalar.isUndefined new = true) :
      (c.checkStationaryValue old new).1 = false ↔ c.streak < c.stationaryBudget := by
    have hblind : (Test.value old new).IsBlind := isBlind_value_iff.mpr (.inr hnew)
    rw [← Bool.not_eq_true, ← Nat.not_le]
    exact not_congr (hblind.make_fires_iff c)
  have hsecond : (c.checkStationaryValue old new).1 = false ∧ nonNegative = true ∧
      Scalar.isUndefined new = true ↔
        c.streak < c.stationaryBudget ∧ nonNegative = true ∧ Scalar.isUndefined new = true :=
    and_congr_left fun h => hvalue h.2
  rw [Operation.tests, firesBlind_budget_cons, firesBlind_cons_armed, firesBlind_cons_armed,
    firesBlind_cons_armed, isBlind_value_iff, ← hsecond]
  simp only [Test.make, Test.Armed, Test.IsBlind, Test.numbers, List.mem_singleton,
    exists_eq_left, firesBlind_nil, and_false, or_false, true_and, haccuracy, and_or_left]

/-- For a rule with defined tolerances: when a test for convergence fires, when it does so although
it is given an undefined number, which of the tests of the combined check does, and that each of
them is taken for convergence. -/
theorem undefined_converges_iff (c : StoppingRule Float)
    (hroot : Scalar.isUndefined c.rootEpsilon = false)
    (hfunction : Scalar.isUndefined c.functionEpsilon = false)
    (hgradient : Scalar.isUndefined c.gradientEpsilon = false) :
    (∀ (t : Test Float) (ε m : Float), t.comparison c = some (ε, m) →
        ((t.make c).1 = true ↔ t.Armed c ∧ (m < ε ∨ Scalar.isUndefined m = true))) ∧
      (∀ t : Test Float, t.IsBlind → ((t.make c).1 = true ↔ t.Armed c)) ∧
      (∀ iteration nonNegative old new gradientNorm,
        FiresBlind (Operation.combined iteration nonNegative old new gradientNorm).tests c ↔
          iteration < c.maxIterations ∧
            (c.stationaryBudget ≤ c.streak ∧
                (Scalar.isUndefined old = true ∨ Scalar.isUndefined new = true) ∨
              c.streak < c.stationaryBudget ∧ nonNegative = true ∧
                Scalar.isUndefined new = true ∨
              (c.checkStationaryValue old new).1 = false ∧
                (c.checkAccuracy new nonNegative).1 = false ∧
                  Scalar.isUndefined gradientNorm = true)) ∧
      ∀ op : Operation Float, FiresBlind op.tests c →
        (op.run c).1 = true ∧ (op.run c).2.outcome.succeeded = true := by
  refine ⟨fun t ε m h => make_fires_iff_lt ?_ h, fun t h => h.make_fires_iff c,
    firesBlind_combined c, fun op h => ?_⟩
  · cases t with
    | point old new => exact (Prod.mk.inj (Option.some.inj h)).1 ▸ hroot
    | value old new => exact (Prod.mk.inj (Option.some.inj h)).1 ▸ hfunction
    | accuracy v nonNegative => exact (Prod.mk.inj (Option.some.inj h)).1 ▸ hfunction
    | gradient norm => exact (Prod.mk.inj (Option.some.inj h)).1 ▸ hgradient
    | budget iteration => contradiction
    | verdict o isTerminal => contradiction
  · rw [run_eq_makeAll]
    exact h.succeeds

/-! ## A rule of ten iterations -/

def ofTen (streak : Nat) : StoppingRule Float :=
  ⟨10, 2, 1e-8, 1e-8, 1e-8, .running, streak, Nat.one_lt_two, by decide⟩

theorem undefined_converges_iff_ofTen :
    Scalar.isUndefined (0 / 0 : Float) = true ∧
      FiresBlind (Operation.combined 3 false 2 1 (0 / 0)).tests (ofTen 0) ∧
      ((ofTen 0).check 3 false 2 1 (0 / 0)).2.outcome.succeeded = true := by
  have hnan : Scalar.isUndefined (0 / 0 : Float) = true := by decide +kernel
  obtain ⟨-, -, hcombined, hsucceeds⟩ := undefined_converges_iff (ofTen 0) (by decide +kernel)
    (by decide +kernel) (by decide +kernel)
  have hfires := (hcombined 3 false 2 1 (0 / 0)).mpr
    ⟨by decide, .inr (.inr ⟨by decide +kernel, by decide +kernel, hnan⟩)⟩
  exact ⟨hnan, hfires, (hsucceeds _ hfires).2⟩

theorem check_fires_undefined :
    (Scalar.isUndefined (1e-8 : Float) = false ∧ Scalar.isUndefined (0 / 0 : Float) = true) ∧
      ((ofTen 2).checkStationaryPoint 1 (0 / 0)).1 = true ∧
      ((ofTen 2).checkStationaryValue (0 / 0) 1).1 = true ∧
      ((ofTen 0).checkAccuracy (0 / 0) true).1 = true ∧
      ((ofTen 0).checkGradient (0 / 0)).1 = true ∧
      ((ofTen 0).check 3 false 2 1 (0 / 0)).1 = true ∧
      ((ofTen 0).check 3 false 2 1 (0 / 0)).2.outcome.succeeded = true := by
  refine ⟨⟨?_, ?_⟩, ?_, ?_, ?_, ?_, ?_, ?_⟩ <;> decide +kernel

end doubles

end Minima.StoppingRule
