import Mathlib.Data.List.DropRight
import Minima.Proofs.StoppingRule

/-!
# Histories of a stopping rule

A rule is used by one operation after another, each of which makes one test or, as the combined
check does, several until one fires.  The record of the tests that were made, with their answers,
is all that a rule remembers: its outcome is the one of the last test that fired, and its streak
the number of stationary tests at the end of the record that saw no change.
-/

namespace Minima.StoppingRule

variable {α : Type}

/-- A test of a rule, or the outcome that a method has decided on by itself. -/
inductive Test (α : Type) where
  | budget (iteration : Nat)
  | point (before after : α)
  | value (before after : α)
  | accuracy (value : α) (nonNegative : Bool)
  | gradient (norm : α)
  | verdict (o : Outcome) (isTerminal : o.isTerminal = true)

inductive Operation (α : Type) where
  | single (test : Test α)
  | combined (iteration : Nat) (nonNegative : Bool) (before after gradientNorm : α)

def Operation.tests : Operation α → List (Test α)
  | single t => [t]
  | combined iteration nonNegative before after gradientNorm =>
      [.budget iteration, .value before after, .accuracy after nonNegative, .gradient gradientNorm]

def Test.outcome : Test α → Outcome
  | budget _ => .maxIterations
  | point _ _ => .stationaryPoint
  | value _ _ => .stationaryValue
  | accuracy _ _ => .stationaryAccuracy
  | gradient _ => .stationaryGradient
  | verdict o _ => o

abbrev Record (α : Type) := List (Test α × Bool)

def Record.outcome (r : Record α) : Outcome :=
  (r.filter (·.2)).getLast?.elim .running (·.1.outcome)

variable [Scalar α]

def Test.changed (c : StoppingRule α) : Test α → Option Bool
  | point old new => some (decide (c.rootEpsilon ≤ Scalar.abs (new - old)))
  | value old new => some (decide (c.functionEpsilon ≤ Scalar.abs (new - old)))
  | _ => none

/-- The number of stationary tests, of either kind, since the last one that saw a change. -/
def Record.still (c : StoppingRule α) (r : Record α) : Nat :=
  ((r.filterMap (·.1.changed c)).rtakeWhile (! ·)).length

def Test.make : Test α → StoppingRule α → Bool × StoppingRule α
  | budget iteration, c => c.checkMaxIterations iteration
  | point old new, c => c.checkStationaryPoint old new
  | value old new, c => c.checkStationaryValue old new
  | accuracy v nonNegative, c => c.checkAccuracy v nonNegative
  | gradient norm, c => c.checkGradient norm
  | verdict o _, c => c.mark o

def Operation.run : Operation α → StoppingRule α → Bool × StoppingRule α
  | single t, c => t.make c
  | combined iteration nonNegative old new gradientNorm, c =>
      c.check iteration nonNegative old new gradientNorm

def makeAll : List (Test α) → StoppingRule α → Bool × StoppingRule α
  | [], c => (false, c)
  | t :: tests, c =>
      match t.make c with
      | (true, next) => (true, next)
      | (false, next) => makeAll tests next

/-- The part of a list of tests that `makeAll` makes, with the answers. -/
def made : List (Test α) → StoppingRule α → Record α
  | [], _ => []
  | t :: tests, c =>
      match t.make c with
      | (true, _) => [(t, true)]
      | (false, next) => (t, false) :: made tests next

def after (c : StoppingRule α) : List (Operation α) → StoppingRule α
  | [] => c
  | op :: history => after (op.run c).2 history

def answers (c : StoppingRule α) : List (Operation α) → List Bool
  | [] => []
  | op :: history => (op.run c).1 :: answers (op.run c).2 history

def record (c : StoppingRule α) : List (Operation α) → Record α
  | [] => []
  | op :: history => made op.tests c ++ record (op.run c).2 history

/-! ## Longer records -/

variable {c : StoppingRule α} {r : Record α} {t : Test α} {fired : Bool}

omit [Scalar α] in
theorem outcome_append (r : Record α) (t : Test α) (fired : Bool) :
    Record.outcome (r ++ [(t, fired)]) = if fired then t.outcome else r.outcome := by
  cases fired with
  | true => simp [Record.outcome]
  | false => simp [Record.outcome]

omit [Scalar α] in
theorem Test.isTerminal_outcome (t : Test α) : t.outcome.isTerminal = true := by
  cases t with
  | verdict o isTerminal => exact isTerminal
  | _ => rfl

omit [Scalar α] in
theorem mark_outcome (c : StoppingRule α) (t : Test α) :
    c.mark t.outcome = (true, { c with outcome := t.outcome }) := by
  rw [mark, t.isTerminal_outcome, if_pos rfl]

omit [Scalar α] in
theorem outcome_eq_running_iff (r : Record α) :
    r.outcome = .running ↔ ∀ entry ∈ r, entry.2 = false := by
  induction r using List.reverseRecOn with
  | nil => simp [Record.outcome]
  | append_singleton r entry ih =>
      obtain ⟨t, fired⟩ := entry
      rw [outcome_append, List.forall_mem_append]
      have hne : t.outcome ≠ .running := by simpa [Outcome.isTerminal] using t.isTerminal_outcome
      cases fired with
      | true => simp [hne]
      | false => simp [ih]

theorem still_append_of_none (h : t.changed c = none) :
    Record.still c (r ++ [(t, fired)]) = r.still c := by
  simp [Record.still, h]

theorem still_append_of_some {changed : Bool} (h : t.changed c = some changed) :
    Record.still c (r ++ [(t, fired)]) = if changed then 0 else r.still c + 1 := by
  cases changed with
  | true => simp [Record.still, h]
  | false => simp [Record.still, h]

/-! ## What a rule remembers -/

/-- The rule with the settings of `c` that has made the tests of a record. -/
def recalled (c : StoppingRule α) (r : Record α) : StoppingRule α :=
  { c with outcome := r.outcome, streak := r.still c }

theorem recalled_nil (c : StoppingRule α) : c.recalled [] = c.reset := rfl

theorem make_of_none (h : t.changed c = none) :
    (t.make (c.recalled r)).2 = c.recalled (r ++ [(t, (t.make (c.recalled r)).1)]) := by
  rw [recalled, recalled, outcome_append, still_append_of_none h]
  cases t with
  | budget iteration =>
      simp only [Test.make, checkMaxIterations, mark, Test.outcome]
      split <;> rfl
  | accuracy v nonNegative =>
      simp only [Test.make, checkAccuracy, mark, Test.outcome]
      split <;> rfl
  | gradient norm =>
      simp only [Test.make, checkGradient, mark, Test.outcome]
      split <;> rfl
  | verdict o isTerminal => simp [Test.make, mark, Test.outcome, isTerminal]
  | point old new => contradiction
  | value old new => contradiction

theorem make_eq_checkStationary {changed : Bool} (h : t.changed c = some changed) :
    t.make (c.recalled r) = (c.recalled r).checkStationary changed t.outcome := by
  cases t with
  | point old new =>
      obtain rfl := Option.some.inj h
      rfl
  | value old new =>
      obtain rfl := Option.some.inj h
      rfl
  | _ => contradiction

theorem make_of_some {changed : Bool} (h : t.changed c = some changed) :
    (t.make (c.recalled r)).2 = c.recalled (r ++ [(t, (t.make (c.recalled r)).1)]) := by
  rw [make_eq_checkStationary h]
  rw [recalled, recalled, outcome_append, still_append_of_some h]
  cases changed with
  | true => simp [checkStationary]
  | false =>
      by_cases hle : r.still c + 1 ≤ c.stationaryBudget
      · simp [checkStationary, hle]
      · simp [checkStationary, mark_outcome, hle]

omit [Scalar α] in
theorem checkStationary_fires_iff (c : StoppingRule α) (t : Test α) :
    (c.checkStationary false t.outcome).1 = true ↔ c.stationaryBudget < c.streak + 1 := by
  rw [checkStationary, if_neg Bool.false_ne_true, mark_outcome]
  split
  · exact iff_of_false Bool.false_ne_true (Nat.not_lt.mpr ‹_›)
  · exact iff_of_true rfl (Nat.not_le.mp ‹_›)

theorem make_fires_iff {changed : Bool} (h : t.changed c = some changed) :
    (t.make (c.recalled r)).1 = true ↔
      c.stationaryBudget < Record.still c (r ++ [(t, fired)]) := by
  rw [make_eq_checkStationary h, still_append_of_some h]
  cases changed with
  | true => simp [checkStationary]
  | false => exact checkStationary_fires_iff (c.recalled r) t

theorem make_recalled (c : StoppingRule α) (r : Record α) (t : Test α) :
    (t.make (c.recalled r)).2 = c.recalled (r ++ [(t, (t.make (c.recalled r)).1)]) := by
  cases h : t.changed c with
  | none => exact make_of_none h
  | some changed => exact make_of_some h

/-- In every stationary test of the record the answer goes with the row of tests without a change
that it ends. -/
def Record.Follows (c : StoppingRule α) (r : Record α) : Prop :=
  ∀ earlier t fired, earlier ++ [(t, fired)] <+: r → (t.changed c).isSome = true →
    (fired = true ↔ c.stationaryBudget < Record.still c (earlier ++ [(t, fired)]))

theorem follows_nil (c : StoppingRule α) : Record.Follows c [] := by
  intro earlier t fired hprefix
  simp at hprefix

theorem Record.Follows.make (hr : r.Follows c) (t : Test α) :
    Record.Follows c (r ++ [(t, (t.make (c.recalled r)).1)]) := by
  intro earlier u fired hprefix hchanged
  rcases List.prefix_concat_iff.mp hprefix with hlast | hearlier
  · obtain ⟨rfl, hentry⟩ := List.append_inj' hlast rfl
    obtain ⟨rfl, rfl⟩ := Prod.mk.inj (List.singleton_inj.mp hentry)
    obtain ⟨changed, hchanged⟩ := Option.isSome_iff_exists.mp hchanged
    exact make_fires_iff hchanged
  · exact hr earlier u fired hearlier hchanged

/-! ## Operations -/

theorem makeAll_recalled (tests : List (Test α)) (hr : r.Follows c) :
    (makeAll tests (c.recalled r)).2 = c.recalled (r ++ made tests (c.recalled r)) ∧
      Record.Follows c (r ++ made tests (c.recalled r)) := by
  induction tests generalizing r with
  | nil => simpa [makeAll, made] using hr
  | cons t tests ih =>
      have hnext := make_recalled c r t
      have hfollows := hr.make t
      rcases hmake : t.make (c.recalled r) with ⟨fired, next⟩
      simp only [hmake] at hnext hfollows
      subst hnext
      cases fired with
      | true =>
          simp only [makeAll, made, hmake]
          exact ⟨trivial, hfollows⟩
      | false =>
          simp only [makeAll, made, hmake]
          simpa using ih hfollows

theorem makeAll_fires (tests : List (Test α)) (c : StoppingRule α) :
    (makeAll tests c).1 = (made tests c).any (·.2) := by
  induction tests generalizing c with
  | nil => rfl
  | cons t tests ih =>
      rcases hmake : t.make c with ⟨_ | _, next⟩
      · simp [makeAll, made, hmake, ih]
      · simp [makeAll, made, hmake]

theorem makeAll_singleton (t : Test α) (c : StoppingRule α) : makeAll [t] c = t.make c := by
  rcases hmake : t.make c with ⟨_ | _, next⟩
  · simp [makeAll, hmake]
  · simp [makeAll, hmake]

theorem check_eq_makeAll (c : StoppingRule α) (iteration : Nat) (nonNegative : Bool)
    (old new gradientNorm : α) :
    c.check iteration nonNegative old new gradientNorm =
      makeAll [.budget iteration, .value old new, .accuracy new nonNegative,
        .gradient gradientNorm] c := by
  simp only [check, makeAll, Test.make]
  rcases c.checkMaxIterations iteration with ⟨_ | _, c₁⟩
  · dsimp only
    rcases c₁.checkStationaryValue old new with ⟨_ | _, c₂⟩
    · dsimp only
      rcases c₂.checkAccuracy new nonNegative with ⟨_ | _, c₃⟩
      · exact (makeAll_singleton (.gradient gradientNorm) c₃).symm
      · rfl
    · rfl
  · rfl

theorem run_eq_makeAll (op : Operation α) (c : StoppingRule α) :
    op.run c = makeAll op.tests c := by
  cases op with
  | single t => exact (makeAll_singleton t c).symm
  | combined iteration nonNegative old new gradientNorm =>
      exact check_eq_makeAll c iteration nonNegative old new gradientNorm

/-! ## Histories -/

theorem after_recalled (history : List (Operation α)) (hr : r.Follows c) :
    after (c.recalled r) history = c.recalled (r ++ record (c.recalled r) history) ∧
      Record.Follows c (r ++ record (c.recalled r) history) := by
  induction history generalizing r with
  | nil => simpa [after, record] using hr
  | cons op history ih =>
      obtain ⟨hnext, hfollows⟩ := makeAll_recalled op.tests hr
      simp only [after, record]
      rw [run_eq_makeAll, hnext, ← List.append_assoc]
      exact ih hfollows

theorem forall_record_iff (history : List (Operation α)) (c : StoppingRule α) :
    (∀ entry ∈ record c history, entry.2 = false) ↔
      ∀ answer ∈ answers c history, answer = false := by
  induction history generalizing c with
  | nil => simp [record, answers]
  | cons op history ih =>
      have hfires : (op.run c).1 = (made op.tests c).any (·.2) := by
        rw [run_eq_makeAll, makeAll_fires]
      simp only [record, answers, List.forall_mem_append, List.forall_mem_cons, ih, hfires,
        List.any_eq_false, Bool.not_eq_true]

omit [Scalar α] in
theorem reset_of_new {maxIterations : Nat} {stationaryBudget : Option Nat}
    {rootEpsilon functionEpsilon : α} {gradientEpsilon : Option α}
    (h : new maxIterations stationaryBudget rootEpsilon functionEpsilon gradientEpsilon = .ok c) :
    c.reset = c := by
  simp only [new] at h
  split at h
  · contradiction
  split at h
  · contradiction
  obtain rfl := Except.ok.inj h
  rfl

/-- What a rule does after any history of operations since it was made or reset, in the words of
the record of that history: the stationary tests fire when the row of tests without a change is
longer than the budget, the outcome is the one of the last test that fired, and an operation
answers whether one of its tests did, made in order up to that one. -/
theorem operations_follow_record (c : StoppingRule α) (history : List (Operation α)) :
    (∀ maxIterations stationaryBudget rootEpsilon functionEpsilon gradientEpsilon,
        new maxIterations stationaryBudget rootEpsilon functionEpsilon gradientEpsilon = .ok c →
          c.reset = c) ∧
      Record.Follows c (record c.reset history) ∧
      (after c.reset history).outcome = (record c.reset history).outcome ∧
      ((after c.reset history).outcome = .running ↔
        ∀ answer ∈ answers c.reset history, answer = false) ∧
      (∀ op : Operation α,
        op.run (after c.reset history) = makeAll op.tests (after c.reset history) ∧
          (op.run (after c.reset history)).1 =
            (made op.tests (after c.reset history)).any (·.2)) ∧
      ∀ iteration, c.maxIterations ≤ iteration → ∀ nonNegative old new gradientNorm,
        (after c.reset history).check iteration nonNegative old new gradientNorm =
          (true, { after c.reset history with outcome := .maxIterations }) := by
  obtain ⟨hafter, hfollows⟩ := after_recalled history (follows_nil c)
  rw [recalled_nil, List.nil_append] at hafter hfollows
  have houtcome : (after c.reset history).outcome = (record c.reset history).outcome := by
    rw [hafter]
    rfl
  refine ⟨fun _ _ _ _ _ hnew => reset_of_new hnew, hfollows, houtcome, ?_, fun op => ?_, ?_⟩
  · rw [houtcome, outcome_eq_running_iff, forall_record_iff]
  · rw [run_eq_makeAll, makeAll_fires]
    exact ⟨rfl, rfl⟩
  · intro iteration hspent nonNegative old new gradientNorm
    have hbudget : (after c.reset history).maxIterations ≤ iteration := by
      rw [hafter]
      exact hspent
    rw [check, checkMaxIterations_of_le hbudget]
    rfl

end Minima.StoppingRule
