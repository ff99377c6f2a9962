import Minima.Proofs.Double
import Minima.Proofs.Leads
import Minima.Proofs.Region.Halving
import Minima.Proofs.StoppingRule
import Minima.Simplex

/-!
# Narrowed moves

In place a move is tried by a loop without a bound of its own.  Each turn asks the region for the
trial point of the factor and halves the factor before it looks at the answer; the loop ends at a
feasible point or at a negligible factor, and both may come at once.  A factor that is not
negligible then is doubled back to the one of the last trial point.

The factors of the method are powers of two, so that nothing is rounded on the way.
-/

namespace Minima.Simplex

open Region (halved)

variable {σ α : Type} [Scalar α] {contains : Vec α → Bool} {n k : Nat} {sum v : Vec α}
  {factor : α}

/-! ## The loop -/

/-- The factor of a move, and the points that the region was asked for, the last one first. -/
structure Narrowing (α : Type) where
  factor : α
  asked : List (Vec α)

def tried (n : Nat) (sum v : Vec α) (factor : α) (k : Nat) : Vec α :=
  trialPoint n sum v (halved factor k)

def trials (n : Nat) (sum v : Vec α) (factor : α) (k : Nat) : List (Vec α) :=
  ((List.range k).map (tried n sum v factor)).reverse

def negligible (factor : α) : Bool := decide (Scalar.abs factor ≤ Scalar.epsilon)

def Narrowing.turn (n : Nat) (sum v : Vec α) (s : Narrowing α) : Narrowing α :=
  ⟨s.factor * 0.5, trialPoint n sum v s.factor :: s.asked⟩

def stops (contains : Vec α → Bool) (n : Nat) (sum v : Vec α) (factor : α) : Bool :=
  contains (trialPoint n sum v factor) || negligible (factor * 0.5)

/-- The loop goes from turn to turn for as long as nothing stops it. -/
inductive Narrows (contains : Vec α → Bool) (n : Nat) (sum v : Vec α) :
    Narrowing α → Narrowing α → Prop
  | last {s : Narrowing α} :
      stops contains n sum v s.factor = true → Narrows contains n sum v s (s.turn n sum v)
  | turn {s s' : Narrowing α} :
      stops contains n sum v s.factor = false → Narrows contains n sum v (s.turn n sum v) s' →
        Narrows contains n sum v s s'

/-- What follows the loop: unless the factor is negligible, the cost at the last trial point decides
whether this point takes the place of the vertex. -/
def tryLast (P : Problem σ α) (highest : Nat) (s : Narrowing α) :
    Run σ (Simplex α) α (Move α) := do
  let high := (← get).memory.values.getD highest 0
  if negligible s.factor then return ⟨high, s.factor⟩
  else
    let factor := s.factor * 2.0
    let trial := s.asked.headD []
    let value ← Run.work (P.value trial)
    if value < high then Run.remember fun t => t.replace highest trial value
    return ⟨value, factor⟩

/-- The extrapolation in place goes from `s` to `s'` with an answer, which holds the value that it
returns and the factor that it leaves, and has asked the region for the points. -/
def Extrapolates (P : Problem σ α) (highest : Nat) (factor : α) (s : Session σ (Simplex α) α)
    (asked : List (Vec α)) (answer : Checked α (Move α)) (s' : Session σ (Simplex α) α) : Prop :=
  ∃ last, Narrows P.region.contains (s.memory.values.length - 1) s.memory.sum
      (s.memory.vertices.getD highest []) ⟨factor, []⟩ last ∧
    last.asked = asked ∧ tryLast P highest last s = (answer, s')

def Move.made (m : Move α) : Option (Move α) := if negligible m.factor then none else some m

/-! ## Turns -/

theorem Narrows.unique {s t t' : Narrowing α} (h : Narrows contains n sum v s t)
    (h' : Narrows contains n sum v s t') : t = t' := by
  induction h with
  | last hstops =>
      cases h' with
      | last => rfl
      | turn hgoes => exact absurd (hgoes.symm.trans hstops) Bool.false_ne_true
  | turn hgoes _ ih =>
      cases h' with
      | last hstops => exact absurd (hgoes.symm.trans hstops) Bool.false_ne_true
      | turn _ h' => exact ih h'

theorem halved_succ (factor : α) (k : Nat) : halved factor (k + 1) = halved factor k * 0.5 :=
  Function.iterate_succ_apply' _ _ _

theorem trials_succ (n : Nat) (sum v : Vec α) (factor : α) (k : Nat) :
    trials n sum v factor (k + 1) = tried n sum v factor k :: trials n sum v factor k := by
  rw [trials, List.range_succ, List.map_append, List.reverse_append]
  rfl

theorem trials_half (n : Nat) (sum v : Vec α) (factor : α) (k : Nat) :
    trials n sum v (factor * 0.5) k ++ [trialPoint n sum v factor] =
      trials n sum v factor (k + 1) := by
  rw [trials, trials, List.range_succ_eq_map, List.map_cons, List.map_map, List.reverse_cons]
  rfl

theorem length_trials (n : Nat) (sum v : Vec α) (factor : α) (k : Nat) :
    (trials n sum v factor k).length = k := by
  rw [trials, List.length_reverse, List.length_map, List.length_range]

/-- The turn after `k` halvings is the first that ends the loop. -/
structure Last (contains : Vec α → Bool) (n : Nat) (sum v : Vec α) (factor : α) (k : Nat) :
    Prop where
  stops : stops contains n sum v (halved factor k) = true
  of_lt {j : Nat} : j < k → Simplex.stops contains n sum v (halved factor j) = false

theorem Last.half (h : Last contains n sum v factor (k + 1)) :
    Last contains n sum v (factor * 0.5) k :=
  ⟨h.stops, fun hj => h.of_lt (Nat.succ_lt_succ hj)⟩

theorem Last.narrows (h : Last contains n sum v factor k) (asked : List (Vec α)) :
    Narrows contains n sum v ⟨factor, asked⟩
      ⟨halved factor (k + 1), trials n sum v factor (k + 1) ++ asked⟩ := by
  induction k generalizing factor asked with
  | zero => exact .last h.stops
  | succ k ih =>
      have hrest := ih h.half (trialPoint n sum v factor :: asked)
      rw [List.append_cons, trials_half] at hrest
      exact .turn (h.of_lt k.succ_pos) hrest

theorem stops_eq_false_iff :
    stops contains n sum v factor = false ↔
      contains (trialPoint n sum v factor) = false ∧ negligible (factor * 0.5) = false :=
  Bool.or_eq_false_iff

theorem reach_succ (halvings : Nat) :
    reach contains n sum v (halvings + 1) factor =
      if negligible (factor * 0.5) then none
      else if contains (trialPoint n sum v factor) then some (trialPoint n sum v factor, factor)
      else reach contains n sum v halvings (factor * 0.5) := by
  simp only [reach, negligible, decide_eq_true_iff]

/-- The search with a bound finds what the loop ends with, if the bound is not below its turns. -/
theorem Last.reach_eq {halvings : Nat} (h : Last contains n sum v factor k) (hk : k < halvings) :
    reach contains n sum v halvings factor =
      if negligible (halved factor (k + 1)) then none
      else some (tried n sum v factor k, halved factor k) := by
  obtain ⟨halvings, rfl⟩ : ∃ m, halvings = m + 1 := Nat.exists_eq_add_one.mpr (by omega)
  induction k generalizing factor halvings with
  | zero =>
      have hstops : (contains (trialPoint n sum v factor) || negligible (factor * 0.5)) = true :=
        h.stops
      change _ = if negligible (factor * 0.5) then none
        else some (trialPoint n sum v factor, factor)
      rw [reach_succ]
      split
      · rfl
      · rename_i hnot
        rw [if_pos (((Bool.or_eq_true _ _).mp hstops).resolve_right hnot)]
  | succ k ih =>
      obtain ⟨hcontains, hnot⟩ := stops_eq_false_iff.mp (h.of_lt k.succ_pos)
      have hcontains : contains (trialPoint n sum v factor) = false := hcontains
      have hnot : negligible (factor * 0.5) = false := hnot
      obtain ⟨halvings, rfl⟩ : ∃ m, halvings = m + 1 := Nat.exists_eq_add_one.mpr (by omega)
      rw [reach_succ, if_neg (Bool.eq_false_iff.mp hnot), if_neg (Bool.eq_false_iff.mp hcontains)]
      exact ih h.half halvings (by omega)

/-! ## The end of the loop -/

variable {P : Problem σ α} {highest : Nat} {s : Session σ (Simplex α) α}

def evaluatedAt (P : Problem σ α) (highest : Nat) (x : Vec α) (factor : α)
    (s : Session σ (Simplex α) α) : Checked α (Move α) × Session σ (Simplex α) α :=
  match P.value x s.progress with
  | (.ok value, progress) =>
      (.ok ⟨value, factor⟩,
        { s with
          progress
          memory :=
            if value < s.memory.values.getD highest 0 then s.memory.replace highest x value
            else s.memory })
  | (.error e, progress) => (.error e, { s with progress })

theorem get_bind_apply {σ ε β : Type} (next : σ → ExceptT ε (StateM σ) β) (s : σ) :
    (get >>= next) s = next s s := rfl

theorem tryLast_of_negligible {last : Narrowing α} (h : negligible last.factor = true) :
    tryLast P highest last s = (.ok ⟨s.memory.values.getD highest 0, last.factor⟩, s) := by
  unfold tryLast
  rw [get_bind_apply]
  dsimp only
  rw [if_pos h]
  rfl

theorem tryLast_of_not_negligible {x : Vec α} {asked : List (Vec α)}
    (h : negligible factor = false) :
    tryLast P highest ⟨factor, x :: asked⟩ s = evaluatedAt P highest x (factor * 2.0) s := by
  unfold tryLast evaluatedAt
  rw [get_bind_apply]
  dsimp only
  rw [if_neg (Bool.eq_false_iff.mp h), bind_apply, Run.work, List.headD_cons]
  rcases P.value x s.progress with ⟨answer, progress⟩
  cases answer with
  | error e => rfl
  | ok value =>
      dsimp only
      split <;> rfl

theorem extrapolate_eq (P : Problem σ α) (highest : Nat) (factor : α)
    (s : Session σ (Simplex α) α) :
    extrapolate P highest factor s =
      match reach P.region.contains (s.memory.values.length - 1) s.memory.sum
        (s.memory.vertices.getD highest []) maxHalvings factor with
      | none => (.ok none, s)
      | some (x, taken) =>
          ((evaluatedAt P highest x taken s).1.map some, (evaluatedAt P highest x taken s).2) := by
  unfold extrapolate
  rw [get_bind_apply]
  dsimp only
  rcases reach P.region.contains (s.memory.values.length - 1) s.memory.sum
    (s.memory.vertices.getD highest []) maxHalvings factor with _ | ⟨x, taken⟩
  · rfl
  · dsimp only
    unfold evaluatedAt
    rw [bind_apply, Run.work]
    rcases P.value x s.progress with ⟨answer, progress⟩
    cases answer with
    | error e => rfl
    | ok value =>
        dsimp only
        split <;> rfl

theorem valueCount_evaluatedAt (P : Problem σ α) (highest : Nat) (x : Vec α) (factor : α)
    (s : Session σ (Simplex α) α) :
    (evaluatedAt P highest x factor s).2.progress.valueCount = s.progress.valueCount + 1 := by
  have hcount : (P.value x s.progress).2.valueCount = s.progress.valueCount + 1 := rfl
  unfold evaluatedAt
  rcases hrun : P.value x s.progress with ⟨answer, progress⟩
  rw [hrun] at hcount
  cases answer with
  | error e => exact hcount
  | ok value => exact hcount

theorem evaluatedAt_of_error {x : Vec α} {e : Failure α} (P : Problem σ α)
    (h : (evaluatedAt P highest x factor s).1 = .error e) :
    (evaluatedAt P highest x factor s).2.memory = s.memory := by
  unfold evaluatedAt at h ⊢
  generalize P.value x s.progress = run at h ⊢
  obtain ⟨answer, progress⟩ := run
  cases answer with
  | error e => rfl
  | ok value => cases h

theorem map_made_evaluatedAt {x : Vec α} (h : negligible factor = false) :
    (evaluatedAt P highest x factor s).1.map Move.made =
      (evaluatedAt P highest x factor s).1.map some := by
  unfold evaluatedAt
  rcases P.value x s.progress with ⟨answer, progress⟩
  cases answer with
  | error e => rfl
  | ok value => exact congrArg Except.ok (if_neg (Bool.eq_false_iff.mp h))

/-! ## The factors of the method -/

def factors : List Float := [-1, 2.0, 0.5]

theorem abs_halved : ∀ factor ∈ factors, ∀ k < 54,
    Scalar.abs (halved factor k) = halved (Scalar.abs factor) k := by
  decide +kernel

theorem halved_mul_two : ∀ factor ∈ factors, ∀ k < 53,
    halved factor (k + 1) * 2.0 = halved factor k := by
  decide +kernel

theorem halved_eq_div : ∀ factor ∈ factors, ∀ k < 54,
    halved factor k = factor / ((2 ^ k : ℕ) : Float) := by
  decide +kernel

theorem halved_abs_le_self : ∀ factor ∈ factors, ∀ k,
    halved (Scalar.abs factor) k ≤ halved (Scalar.abs factor) k := by
  intro factor hfactor k
  induction k with
  | zero =>
      have hdefined : ∀ factor ∈ factors, Scalar.abs factor ≤ Scalar.abs factor := by
        decide +kernel
      exact hdefined factor hfactor
  | succ k ih =>
      rw [halved_succ]
      exact OrderedScalar.mul_half_le_mul_half ih

theorem negligible_halved : ∀ factor ∈ factors, negligible (halved factor 53) = true := by
  decide +kernel

theorem halved_le_epsilon {a : Float} {i j : Nat} (h : halved a i ≤ Scalar.epsilon) (hij : i ≤ j) :
    halved a j ≤ Scalar.epsilon := by
  induction hij with
  | refl => exact h
  | step _ ih =>
      have hhalf : (Scalar.epsilon : Float) * 0.5 ≤ Scalar.epsilon := by decide +kernel
      rw [Nat.succ_eq_add_one, halved_succ]
      exact OrderedScalar.le_trans (OrderedScalar.mul_half_le_mul_half ih) hhalf

/-- The first feasible trial point is the one after `k` halvings, and half of its factor is not
negligible. -/
structure Room (contains : Vec Float → Bool) (n : Nat) (sum v : Vec Float) (factor : Float)
    (k : Nat) : Prop where
  of_lt {j : Nat} : j < k → contains (tried n sum v factor j) = false
  contains : contains (tried n sum v factor k) = true
  roomy : Scalar.epsilon < halved (Scalar.abs factor) (k + 1)

section room

variable {contains : Vec Float → Bool} {sum v : Vec Float} {factor : Float}

theorem negligible_halved_iff (hfactor : factor ∈ factors) (hk : k < 54) :
    negligible (halved factor k) = true ↔ halved (Scalar.abs factor) k ≤ Scalar.epsilon := by
  rw [negligible, abs_halved factor hfactor k hk, decide_eq_true_iff]

theorem exists_last (contains : Vec Float → Bool) (n : Nat) (sum v : Vec Float)
    (hfactor : factor ∈ factors) : ∃ k < 53, Last contains n sum v factor k := by
  have hstops : stops contains n sum v (halved factor 52) = true := by
    rw [stops, ← halved_succ, negligible_halved factor hfactor, Bool.or_true]
  have hexists : ∃ k, stops contains n sum v (halved factor k) = true := ⟨52, hstops⟩
  have hle : Nat.find hexists ≤ 52 := Nat.find_min' hexists hstops
  exact ⟨Nat.find hexists, Nat.lt_succ_of_le hle, Nat.find_spec hexists,
    fun hj => Bool.eq_false_iff.mpr (Nat.find_min hexists hj)⟩

theorem Last.not_room (h : Last contains n sum v factor k) (hfactor : factor ∈ factors)
    (hk : k < 53) (hneg : negligible (halved factor (k + 1)) = true) (i : Nat) :
    ¬ Room contains n sum v factor i := by
  intro hroom
  obtain hik | hki := Nat.lt_or_ge i k
  · have hcontains : contains (tried n sum v factor i) = false :=
      (stops_eq_false_iff.mp (h.of_lt hik)).1
    exact Bool.false_ne_true (hcontains.symm.trans hroom.contains)
  · have hle := (negligible_halved_iff hfactor (Nat.succ_lt_succ hk)).mp hneg
    exact OrderedScalar.not_le_of_lt hroom.roomy
      (halved_le_epsilon hle (Nat.succ_le_succ hki))

theorem Last.room (h : Last contains n sum v factor k) (hfactor : factor ∈ factors)
    (hk : k < 53) (hneg : negligible (halved factor (k + 1)) = false) :
    Room contains n sum v factor k where
  of_lt hj := (stops_eq_false_iff.mp (h.of_lt hj)).1
  contains := by
    have hstops := h.stops
    rw [Simplex.stops, ← halved_succ, hneg, Bool.or_false] at hstops
    exact hstops
  roomy := by
    have hnot := mt (negligible_halved_iff hfactor (Nat.succ_lt_succ hk)).mpr
      (Bool.eq_false_iff.mp hneg)
    exact OrderedScalar.lt_of_not_le (by decide +kernel)
      (halved_abs_le_self factor hfactor (k + 1)) hnot

theorem Room.not_negligible (h : Room contains n sum v factor k) (hfactor : factor ∈ factors)
    (hk : k < 53) : negligible (halved factor k) = false := by
  rw [Bool.eq_false_iff]
  intro hneg
  have hle := (negligible_halved_iff hfactor (Nat.lt_succ_of_lt hk)).mp hneg
  exact OrderedScalar.not_le_of_lt h.roomy (halved_le_epsilon hle k.le_succ)

theorem tryLast_trials (P : Problem σ Float) (highest : Nat) (s : Session σ (Simplex Float) Float)
    (n : Nat) (sum v : Vec Float) (hfactor : factor ∈ factors) (hk : k < 53)
    (hneg : negligible (halved factor (k + 1)) = false) :
    tryLast P highest ⟨halved factor (k + 1), trials n sum v factor (k + 1)⟩ s =
      evaluatedAt P highest (tried n sum v factor k) (halved factor k) s := by
  rw [trials_succ, tryLast_of_not_negligible hneg, halved_mul_two factor hfactor k hk]

end room

/-- The loop in place ends within 53 tests, and the answer is that of the search with a bound.  If
half of the factor is not negligible at the first feasible trial point, the cost is evaluated there
and decides alone about the vertex.  Otherwise the simplex is not touched. -/
theorem extrapolate_narrows (P : Problem σ Float) (highest : Nat) {factor : Float}
    (s : Session σ (Simplex Float) Float) (hfactor : factor ∈ factors) :
    ∃ asked answer s', Extrapolates P highest factor s asked answer s' ∧
      asked.length ≤ 53 ∧
      extrapolate P highest factor s = (answer.map Move.made, s') ∧
      (∀ e, answer = .error e → s'.memory = s.memory) ∧
      let n := s.memory.values.length - 1
      let v := s.memory.vertices.getD highest []
      let room := Room P.region.contains n s.memory.sum v factor
      ((∃ k, room k ∧
          halved factor k = factor / ((2 ^ k : ℕ) : Float) ∧
          asked = trials n s.memory.sum v factor (k + 1) ∧
          (answer, s') =
            evaluatedAt P highest (tried n s.memory.sum v factor k) (halved factor k) s ∧
          s'.progress.valueCount = s.progress.valueCount + 1) ∨
        (∀ k, ¬ room k) ∧ s' = s ∧
          ∃ left, answer = .ok ⟨s.memory.values.getD highest 0, left⟩ ∧
            Scalar.abs left ≤ Scalar.epsilon) := by
  obtain ⟨k, hk, hlast⟩ := exists_last P.region.contains (s.memory.values.length - 1)
    s.memory.sum (s.memory.vertices.getD highest []) hfactor
  have hnarrows := hlast.narrows []
  rw [List.append_nil] at hnarrows
  have hlength : (trials (s.memory.values.length - 1) s.memory.sum
      (s.memory.vertices.getD highest []) factor (k + 1)).length ≤ 53 := by
    rw [length_trials]
    exact hk
  have hreach := hlast.reach_eq (show k < maxHalvings from hk)
  cases hneg : negligible (halved factor (k + 1)) with
  | true =>
      rw [if_pos hneg] at hreach
      refine ⟨_, _, _, ⟨_, hnarrows, rfl, tryLast_of_negligible hneg⟩, hlength, ?_, ?_,
        .inr ⟨hlast.not_room hfactor hk hneg, rfl, _, rfl, of_decide_eq_true hneg⟩⟩
      · rw [extrapolate_eq, hreach]
        exact congrArg (fun answer => (Except.ok answer, s)) (if_pos hneg).symm
      · exact fun _ h => nomatch h
  | false =>
      rw [if_neg (Bool.eq_false_iff.mp hneg)] at hreach
      have hroom := hlast.room hfactor hk hneg
      have hpower := halved_eq_div factor hfactor k (Nat.lt_succ_of_lt hk)
      have hanswer := tryLast_trials P highest s (s.memory.values.length - 1) s.memory.sum
        (s.memory.vertices.getD highest []) hfactor hk hneg
      refine ⟨_, _, _, ⟨_, hnarrows, rfl, hanswer.trans Prod.mk.eta.symm⟩, hlength, ?_, ?_,
        .inl ⟨k, hroom, hpower, rfl, rfl, valueCount_evaluatedAt P highest _ _ s⟩⟩
      · rw [extrapolate_eq, hreach]
        exact congrArg (·, _) (map_made_evaluatedAt (hroom.not_negligible hfactor hk)).symm
      · exact fun _ h => evaluatedAt_of_error P h

/-! ## A move on an interval -/

def squareOnInterval : Problem Unit Float where
  objective := .ofParts (fun x => pure (Vec.dot x x)) none none none Objective.usualStep
  region := Region.unitInterval

def segment : Session Unit (Simplex Float) Float where
  progress := .start () [0.25]
  rule := ⟨3, 2, 1e-8, 1e-12, 1e-12, .running, 0, Nat.one_lt_two, StoppingRule.two_le_three⟩
  memory := ⟨0.75, [[0.25], [1]], [0.0625, 1], [1.25]⟩

theorem extrapolate_narrows_segment :
    -1 ∈ factors ∧ ∃ answer s',
      Extrapolates squareOnInterval 1 (-1) segment [[0.0625], [-0.125], [-0.5]] answer s' ∧
      answer.toOption.map Move.factor = some (-0.25) ∧
      s'.memory.vertices = [[0.25], [0.0625]] ∧ s'.progress.valueCount = 1 := by
  have hfactor : -1 ∈ factors := .head _
  obtain ⟨asked, answer, s', hruns, -, -, -, ⟨k, hroom, -, rfl, hanswer, -⟩ | ⟨hnone, -⟩⟩ :=
    extrapolate_narrows squareOnInterval 1 segment hfactor
  · have hle : ¬ 2 < k := fun h => absurd (hroom.of_lt h) (by decide +kernel)
    have hfirst : k ≠ 0 := by
      rintro rfl
      exact absurd hroom.contains (by decide +kernel)
    have hsecond : k ≠ 1 := by
      rintro rfl
      exact absurd hroom.contains (by decide +kernel)
    obtain rfl : k = 2 := by omega
    have hasked : trials 1 [1.25] [1] (-1 : Float) 3 = [[0.0625], [-0.125], [-0.5]] := by
      decide +kernel
    have hruns : Extrapolates squareOnInterval 1 (-1) segment _ _ _ := hasked ▸ hruns
    obtain ⟨rfl, rfl⟩ := Prod.ext_iff.mp hanswer
    refine ⟨hfactor, _, _, hruns, ?_, ?_, ?_⟩
    · decide +kernel
    · decide +kernel
    · decide +kernel
  · refine absurd ⟨fun {j} hj => ?_, by decide +kernel, by decide +kernel⟩ (hnone 2)
    obtain rfl | rfl : j = 0 ∨ j = 1 := by omega
    · decide +kernel
    · decide +kernel

end Minima.Simplex
