import Minima.Proofs.Method.Failures
import Minima.Proofs.Repeats
import Minima.Proofs.StoppingRule

/-!
# Runs on used methods

What a method learns in one run is reset or overwritten in the next before it is read: a run
depends on the configuration, the state of the source, the current point and the settings of the
rule alone.
-/

namespace Minima

variable {ρ σ α β : Type}

/-! ## What earlier runs may leave behind -/

def Strategy.untaught : Strategy α → Strategy α
  | steepest => steepest
  | conjugate formula _ => conjugate formula none
  | quasiNewton _ => quasiNewtonUnset

theorem Strategy.reset_untaught [Scalar α] (n : Nat) (s : Strategy α) :
    s.untaught.reset n = s.reset n := by
  cases s with
  | steepest => rfl
  | conjugate formula curvature => rfl
  | quasiNewton h => rfl

def Descent.Equipped (d d' : Descent α) : Prop :=
  d.strategy.untaught = d'.strategy.untaught ∧ d.search = d'.search

theorem Descent.Equipped.refl (d : Descent α) : Equipped d d := ⟨rfl, rfl⟩

def Simplex.Equipped (m m' : Simplex α) : Prop := m.lambda = m'.lambda

theorem Simplex.Equipped.refl (m : Simplex α) : Equipped m m := rfl

/-- The same settings and source, whatever the box, the weights and the probabilities were and
whatever member was the best. -/
def Evolution.Equipped (e e' : Evolution ρ α) : Prop :=
  e.settings = e'.settings ∧ e.source = e'.source

/-- The same configuration, and the same state of the source. -/
inductive Method.Equipped : Method ρ α → Method ρ α → Prop
  | descent {d d' : Descent α} : Descent.Equipped d d' → Equipped (descent d) (descent d')
  | simplex {m m' : Simplex α} : Simplex.Equipped m m' → Equipped (simplex m) (simplex m')
  | annealing {a a' : Annealing ρ α} : a = a' → Equipped (annealing a) (annealing a')
  | evolution {e e' : Evolution ρ α} : Evolution.Equipped e e' →
      Equipped (evolution e) (evolution e')
  | leastSquares {l l' : LeastSquaresMethod α} : l = l' →
      Equipped (leastSquares l) (leastSquares l')

/-! ## The sum of a simplex -/

namespace Simplex

def Unsummed (m m' : Simplex α) : Prop := { m with sum := [] } = { m' with sum := [] }

theorem Unsummed.equipped {m m' : Simplex α} (h : Unsummed m m') : Equipped m m' :=
  (congrArg Simplex.lambda h :)

theorem repeats_remember_unsummed
    {weak : Session σ (Simplex α) α → Session σ (Simplex α) α → Prop}
    {f : Simplex α → Simplex α} (h : ∀ m, { f m with sum := [] } = f { m with sum := [] }) :
    Repeats weak (Session.Alike Unsummed) (Session.Alike Unsummed) (Run.remember f) := by
  refine repeats_remember fun m m' hm => ?_
  unfold Unsummed
  rw [h, h, hm]

end Simplex

/-! ## The stages of differential evolution -/

namespace Evolution

def Boxed (e e' : Evolution ρ α) : Prop := e.box = e'.box ∧ e.source = e'.source

def Unsettled (e e' : Evolution ρ α) : Prop :=
  { e with bestEver := none } = { e' with bestEver := none }

/-- A relation between methods with the same settings and source, which draws keep. -/
structure Sourced (R : Evolution ρ α → Evolution ρ α → Prop) : Prop where
  equipped {e e' : Evolution ρ α} : R e e' → Equipped e e'
  source {e e' : Evolution ρ α} (source : ρ) :
    R e e' → R { e with source } { e' with source }

theorem sourced_boxed : Sourced (Boxed (ρ := ρ) (α := α)) where
  equipped h := ⟨congrArg Setup.settings h.1, h.2⟩
  source _ h := ⟨h.1, rfl⟩

theorem sourced_unsettled : Sourced (Unsettled (ρ := ρ) (α := α)) where
  equipped h := ⟨(congrArg Evolution.settings h :), (congrArg Evolution.source h :)⟩
  source source h := (congrArg (fun e : Evolution ρ α => { e with source }) h :)

end Evolution

/-! ## Runs -/

variable [Scalar α] {P : Problem σ α}

namespace Descent

theorem repeats_resetStrategy {weak : Session σ (Descent α) α → Session σ (Descent α) α → Prop}
    (n : Nat) : Repeats weak (Session.Alike Equipped) (Session.Alike Eq)
      (resetStrategy n : Run σ (Descent α) α Unit) := by
  refine repeats_remember ?_
  rintro ⟨strategy, search⟩ ⟨strategy', search'⟩ ⟨hstrategy, rfl⟩
  change DescentBy.mk (strategy.reset n) _ = DescentBy.mk (strategy'.reset n) _
  rw [← Strategy.reset_untaught, hstrategy, Strategy.reset_untaught]

theorem repeats_start :
    Repeats (Session.Alike Equipped) (Session.Renews Equipped) (Session.Alike Eq)
      (start P : Run σ (Descent α) α (Stand α)) := by
  have hrest (x : Vec α) : Repeats (Session.Alike Equipped) (Session.Alike Equipped)
      (Session.Alike Eq) (evaluateStart P x : Run σ (Descent α) α (Stand α)) :=
    (repeats_work (fun _ _ h => h) _).bind fun _ => (repeats_work (fun _ _ h => h) _).bind fun _ =>
      (repeats_resetStrategy _).bind fun _ => repeats_pure _
  refine repeats_reset.bind fun _ => repeats_get_bind (fun s t h => ?_) fun s => ?_
  · rw [h.progress_eq]
  · exact .ite ((repeats_throw fun _ _ h => h).bind fun _ => hrest _) (hrest _)

theorem repeats_minimize :
    Repeats (Session.Alike Equipped) (Session.Renews Equipped) (Session.Alike Equipped)
      (minimize P : Run σ (Descent α) α Outcome) :=
  repeats_start.bind fun _ => repeats_eq Equipped.refl _

end Descent

namespace Simplex

theorem repeats_start :
    Repeats (Session.Alike Equipped) (Session.Renews Equipped) (Session.Alike Unsummed)
      (start P) := by
  refine repeats_reset.bind fun _ => repeats_get_bind (fun s t h => ?_) fun s => ?_
  · rw [h.progress_eq, h.memory]
  · refine (repeats_attempt (fun _ _ h => h) _).bind fun vertices => ?_
    refine Repeats.bind (repeats_remember fun m m' h => ?_) fun _ => repeats_pure _
    unfold Unsummed
    rw [h]

theorem repeats_evaluateVertices (vertices : List (Vec α)) :
    Repeats (Session.Alike Equipped) (Session.Alike Unsummed) (Session.Alike Unsummed)
      (evaluateVertices P vertices) := by
  induction vertices with
  | nil => exact repeats_pure _
  | cons x rest ih =>
      have hrest (value : α) : Repeats (Session.Alike Equipped) (Session.Alike Unsummed)
          (Session.Alike Unsummed) (do
            Run.remember fun s => { s with values := s.values ++ [value] }
            evaluateVertices P rest) :=
        (repeats_remember_unsummed fun _ => rfl).bind fun _ => ih
      exact .ite ((repeats_work (fun _ _ h => h.equipped) _).bind hrest)
        ((repeats_pure _).bind hrest)

theorem repeats_iterate (n more iteration : Nat) :
    Repeats (Session.Alike Equipped) (Session.Alike Unsummed) (Session.Alike Equipped)
      (iterate P n (more + 1) iteration) := by
  have hsum : Repeats (Session.Alike Equipped) (Session.Alike Unsummed) (Session.Alike Eq)
      (Run.remember fun s => { s with sum := sumOf n s.vertices } :
        Run σ (Simplex α) α Unit) := by
    refine repeats_remember fun m m' h => ?_
    obtain ⟨lambda, vertices, values, sum⟩ := m
    obtain ⟨lambda', vertices', values', sum'⟩ := m'
    obtain ⟨rfl, rfl, rfl, -⟩ := Simplex.mk.inj h
    rfl
  exact hsum.bind fun _ => repeats_eq Equipped.refl _

theorem repeats_minimize :
    Repeats (Session.Alike Equipped) (Session.Renews Equipped) (Session.Alike Equipped)
      (minimize P) := by
  refine repeats_start.bind fun vertices => repeats_get_bind (fun s t h => ?_) fun s => ?_
  · rw [h.progress_eq]
  refine (repeats_evaluateVertices vertices).bind fun _ => ?_
  refine repeats_get_bind (fun s t h => ?_) fun s => ?_
  · rw [h.rule_eq]
  obtain ⟨more, hmore⟩ := Nat.exists_eq_succ_of_ne_zero s.rule.maxIterations_pos.ne'
  rw [hmore]
  exact repeats_iterate _ more 1

end Simplex

namespace Evolution

variable {R : Evolution ρ α → Evolution ρ α → Prop}

abbrev RepeatsIn (R : Evolution ρ α → Evolution ρ α → Prop) (act : Run σ (Evolution ρ α) α β) :
    Prop :=
  Repeats (Session.Alike Equipped) (Session.Alike R) (Session.Alike R) act

omit [Scalar α] in
theorem Sourced.alike (sourced : Sourced R) {s t : Session σ (Evolution ρ α) α}
    (h : Session.Alike R s t) : Session.Alike Equipped s t :=
  { h with memory := sourced.equipped h.memory }

omit [Scalar α] in
theorem repeats_draw (sourced : Sourced R) (d : StateM ρ β) :
    RepeatsIn R (draw d : Run σ (Evolution ρ α) α β) := by
  intro s t hst
  have hsource := (sourced.equipped hst.memory).2
  refine ⟨congrArg (fun r => (d r).1) hsource, hst.progress_eq, hst.rule_eq, ?_⟩
  change R { s.memory with source := (d s.memory.source).2 }
    { t.memory with source := (d t.memory.source).2 }
  rw [hsource]
  exact sourced.source _ hst.memory

theorem repeats_evaluate (sourced : Sourced R) (x : Vec α) :
    RepeatsIn R (evaluate P x : Run σ (Evolution ρ α) α (Candidate α)) := by
  intro s t hst
  unfold evaluate
  rw [work_value_apply, work_value_apply, hst.progress_eq, hst.rule_eq]
  rcases (P.objective.value x t.progress.oracle).1 with (failure | v)
  · cases failure with
    | error e => exact ⟨rfl, rfl, rfl, hst.memory⟩
    | sizeMismatch => exact ⟨rfl, rfl, rfl, sourced.equipped hst.memory⟩
    | refused r => exact ⟨rfl, rfl, rfl, sourced.equipped hst.memory⟩
  · exact ⟨rfl, rfl, rfl, hst.memory⟩

theorem repeats_enter (sourced : Sourced R) (n : Nat) (x : Vec α) :
    RepeatsIn R (enter P n x : Run σ (Evolution ρ α) α (Candidate α)) := by
  rw [enter_eq]
  exact (repeats_attempt (fun _ _ => sourced.alike) _).bind fun _ => repeats_evaluate sourced x

variable [RandomSource ρ]

theorem repeats_randomMembers (sourced : Sourced R) (box : Setup α) (count : Nat) :
    RepeatsIn R (randomMembers P box count : Run σ (Evolution ρ α) α _) := by
  induction count with
  | zero => exact repeats_pure _
  | succ count ih =>
      exact (repeats_draw sourced _).bind fun _ => (repeats_evaluate sourced _).bind fun _ =>
        ih.bind fun _ => repeats_pure _

theorem repeats_firstPopulation (sourced : Sourced R) (box : Setup α) :
    RepeatsIn R (firstPopulation P box : Run σ (Evolution ρ α) α _) := by
  refine repeats_get_bind (fun s t h => ?_) fun s => ?_
  · rw [h.progress_eq]
  cases box.settings.initial with
  | some members => exact repeats_mapM (repeats_enter sourced _) members
  | none =>
      have hrest : RepeatsIn R (do
          let first ← evaluate P s.progress.point
          return first :: (← randomMembers P box (box.settings.members - 1)) :
            Run σ (Evolution ρ α) α _) :=
        (repeats_evaluate sourced _).bind fun _ =>
          (repeats_randomMembers sourced box _).bind fun _ =>
          repeats_pure _
      exact .ite ((repeats_throw fun _ _ => sourced.alike).bind fun _ => hrest) hrest

theorem repeats_select (sourced : Sourced R) (box : Setup α) (population : List (Candidate α))
    (mutants anchors : List (Vec α)) (masks : List (List Bool)) :
    RepeatsIn R (select P box population mutants anchors masks : Run σ (Evolution ρ α) α _) := by
  fun_induction (select P box population mutants anchors masks : Run σ (Evolution ρ α) α _) with
  | case1 old population mutant mutants anchor anchors mask masks ih =>
      exact (repeats_draw sourced _).bind fun _ => (repeats_evaluate sourced _).bind fun _ =>
        ih.bind fun _ => repeats_pure _
  | case2 => exact repeats_pure _

theorem repeats_nextGeneration (box : Setup α) (state : State α) :
    RepeatsIn Unsettled (nextGeneration P box state : Run σ (Evolution ρ α) α _) := by
  refine repeats_get_bind (fun s t h => ?_) fun s => ?_
  · have hweights : s.memory.weights = t.memory.weights :=
      (congrArg Evolution.weights h.memory :)
    have hprobabilities : s.memory.probabilities = t.memory.probabilities :=
      (congrArg Evolution.probabilities h.memory :)
    dsimp only
    rw [hweights, hprobabilities]
  refine (repeats_draw sourced_unsettled _).bind fun (made, weights) => ?_
  refine (repeats_draw sourced_unsettled _).bind fun (probabilities, masks) => ?_
  have hadapts : RepeatsIn Unsettled (Run.remember fun e => { e with weights, probabilities } :
      Run σ (Evolution ρ α) α Unit) :=
    repeats_remember fun _ _ h =>
      (congrArg (fun e : Evolution ρ α => { e with weights, probabilities }) h :)
  exact hadapts.bind fun _ => (repeats_select sourced_unsettled box _ _ _ _).bind fun _ =>
    repeats_pure _

theorem repeats_generations (box : Setup α) (more generation : Nat) (state : State α) :
    RepeatsIn Unsettled (generations P box more generation state :
      Run σ (Evolution ρ α) α _) := by
  induction more generalizing generation state with
  | zero => exact repeats_pure _
  | succ more ih =>
      refine Repeats.bind ((repeats_check _).bind fun _ => .ite (repeats_pure _) ?_)
        fun r => .ite (ih _ _) (repeats_pure _)
      exact (repeats_nextGeneration box state).bind fun _ => (repeats_check _).bind fun _ =>
        repeats_pure _

def found (P : Problem σ α) (settings : Settings α) (x : Vec α) :
    Run σ (Evolution ρ α) α (Setup α × State α) := do
  let made ← attempt (setup P.region settings x)
  Run.remember fun e => { e with lower := made.lower, upper := made.upper }
  let box := (← get).memory.box
  let members ← firstPopulation P box
  Run.remember fun e => { e with
    weights := members.map fun _ => settings.stepWeight
    probabilities := x.map fun _ => settings.crossoverProbability }
  match bestToFront members with
  | [] => throw (.invalid .emptyPopulation)
  | first :: rest => return (box, ⟨first :: rest, first⟩)

/-- First the box is overwritten, then the weights and the probabilities. -/
theorem repeats_found (settings : Settings α) (x : Vec α) :
    Repeats (Session.Alike Equipped) (Session.Alike Equipped) (Session.Alike Unsettled)
      (found P settings x : Run σ (Evolution ρ α) α _) := by
  refine (repeats_attempt (fun _ _ h => h) _).bind fun made => ?_
  have hboxes : Repeats (Session.Alike Equipped) (Session.Alike Equipped) (Session.Alike Boxed)
      (Run.remember fun e => { e with lower := made.lower, upper := made.upper } :
        Run σ (Evolution ρ α) α Unit) :=
    repeats_remember fun e e' h =>
      ⟨congrArg (fun c => Setup.mk c made.lower made.upper) h.1, h.2⟩
  have hadapts (members : List (Candidate α)) :
      Repeats (Session.Alike Equipped) (Session.Alike Boxed) (Session.Alike Unsettled)
        (Run.remember fun e => { e with
          weights := members.map fun _ => settings.stepWeight
          probabilities := x.map fun _ => settings.crossoverProbability } :
          Run σ (Evolution ρ α) α Unit) := by
    refine repeats_remember fun e e' h => ?_
    obtain ⟨c, source, lower, upper, weights, probabilities, best⟩ := e
    obtain ⟨c', source', lower', upper', weights', probabilities', best'⟩ := e'
    obtain ⟨hbox, rfl⟩ := h
    obtain ⟨rfl, rfl, rfl⟩ := Setup.mk.inj hbox
    rfl
  refine hboxes.bind fun _ => repeats_get_bind (fun s t h => ?_) fun s => ?_
  · rw [h.memory.1]
  refine (repeats_firstPopulation sourced_boxed _).bind fun members => ?_
  refine (hadapts members).bind fun _ => ?_
  cases bestToFront members with
  | nil => exact repeats_throw fun _ _ => sourced_unsettled.alike
  | cons first rest => exact repeats_pure _

theorem repeats_start :
    Repeats (Session.Alike Equipped) (Session.Renews Equipped) (Session.Alike Unsettled)
      (start P : Run σ (Evolution ρ α) α _) := by
  refine repeats_reset.bind fun _ => repeats_get_bind (fun s t h => ?_) fun s => ?_
  · rw [h.progress_eq, h.memory.1]
  · exact .ite ((repeats_throw fun _ _ h => h).bind fun _ => repeats_found _ _) (repeats_found _ _)

theorem repeats_minimize :
    Repeats (Session.Alike Equipped) (Session.Renews Equipped) (Session.Alike Equipped)
      (minimize P : Run σ (Evolution ρ α) α Outcome) := by
  refine repeats_start.bind fun r => repeats_get_bind (fun s t h => ?_) fun s => ?_
  · rw [h.rule_eq]
  refine (repeats_generations r.1 _ 0 r.2).bind fun state => ?_
  have hbest : Repeats (Session.Alike Equipped) (Session.Alike Unsettled) (Session.Alike Equipped)
      (Run.remember fun e => { e with bestEver := some state.best } :
        Run σ (Evolution ρ α) α Unit) :=
    repeats_remember fun _ _ h => sourced_unsettled.equipped h
  exact (repeats_work (fun _ _ => sourced_unsettled.equipped) _).bind fun _ =>
    hbest.bind fun _ => repeats_outcome

end Evolution

namespace Method

variable [RandomSource ρ]

theorem repeats_minimize :
    Repeats (Session.Alike Equipped) (Session.Renews Equipped) (Session.Alike Equipped)
      (minimize P : Run σ (Method ρ α) α Outcome) := by
  rintro ⟨p, c, m⟩ ⟨p', c', m'⟩ hst
  have hmemory : Equipped m m' := hst.memory
  cases hmemory with
  | descent h => exact endsAlike_within Descent.repeats_minimize (fun _ _ => .descent) h hst
  | simplex h => exact endsAlike_within Simplex.repeats_minimize (fun _ _ => .simplex) h hst
  | evolution h => exact endsAlike_within Evolution.repeats_minimize (fun _ _ => .evolution) h hst
  | annealing h =>
      have hrepeats : Repeats (Session.Alike Eq) (Session.Renews Eq) (Session.Alike Eq)
          (Annealing.minimize P : Run σ (Annealing ρ α) α Outcome) :=
        repeats_reset.bind fun _ => repeats_eq (fun _ => rfl) _
      exact endsAlike_within hrepeats (fun _ _ => .annealing) h hst
  | leastSquares h =>
      have hrepeats : Repeats (Session.Alike Eq) (Session.Renews Eq) (Session.Alike Eq)
          (LeastSquaresMethod.minimize P) :=
        (repeats_reset.bind fun _ => repeats_eq (fun _ => rfl) _).bind fun _ =>
          repeats_eq (fun _ => rfl) _
      exact endsAlike_within hrepeats (fun _ _ => .leastSquares) h hst

def requests (P : Problem σ α) (s : Session σ (Method ρ α) α) : List (Vec α) :=
  (minimize P.traced { s with progress := s.progress.logged }).2.progress.oracle.2

/-- Two runs that agree on the configuration of the method and its source, on the current point
and the state of the objective, and on the settings of the rule, give the same answer, make the
same requests and leave the same progress and the same rule, whatever earlier runs have left
behind; and so would the runs after them. -/
theorem minimize_repeats (P : Problem σ α) {s t : Session σ (Method ρ α) α}
    (h : Session.Renews Equipped s t) :
    (minimize P s).1 = (minimize P t).1 ∧ requests P s = requests P t ∧
      (minimize P s).2.progress = (minimize P t).2.progress ∧
      (minimize P s).2.rule = (minimize P t).2.rule ∧
      Equipped (minimize P s).2.memory (minimize P t).2.memory := by
  obtain ⟨hanswer, hends⟩ := (repeats_minimize (P := P) s t h).answer_eq
  have htraced : Session.Renews Equipped { s with progress := s.progress.logged }
      { t with progress := t.progress.logged } :=
    { h with oracle_eq := congrArg (·, []) h.oracle_eq }
  obtain ⟨-, hlogs⟩ := (repeats_minimize (P := P.traced) _ _ htraced).answer_eq
  exact ⟨hanswer, congrArg (·.oracle.2) hlogs.progress_eq, hends.progress_eq, hends.rule_eq,
    hends.memory⟩

def unused : Session (List (Evaluation Float)) (Method Generator Float) Float where
  progress := .start [] [1]
  rule := ⟨3, 2, 1e-8, 1e-8, 1e-8, .running, 0, Nat.one_lt_two, StoppingRule.two_le_three⟩
  memory := .descent .quasiNewton

def used : Session (List (Evaluation Float)) (Method Generator Float) Float where
  progress := ⟨[], [1], some 7, some 5, 3, 2⟩
  rule := ⟨3, 2, 1e-8, 1e-8, 1e-8, .maxIterations, 2, Nat.one_lt_two, StoppingRule.two_le_three⟩
  memory := .descent ⟨.quasiNewton (DenseMatrix.identity 4), .backtracking .usual⟩

def adapting : Evolution.Settings Float :=
  { Evolution.Settings.usual with
    mutation := .rand1SelfadaptiveWithRotation
    members := 2
    adaptive := true }

def unadapted : Session (List (Evaluation Float)) (Method Generator Float) Float :=
  { unused with memory := .evolution { settings := adapting, source := .counter 0 } }

/-- An earlier run has left a box, three weights, a probability and its best member. -/
def adapted : Session (List (Evaluation Float)) (Method Generator Float) Float :=
  { used with memory := .evolution {
      settings := adapting
      source := .counter 0
      lower := [3]
      upper := [4]
      weights := [0.1, 0.5, 0.9]
      probabilities := [0.9]
      bestEver := some ⟨[3], 9⟩ } }

def parabolaWithin (c : Constraint Float) : Problem (List (Evaluation Float)) Float :=
  ⟨Descent.parabola.objective, c.region⟩

theorem minimize_repeats_used :
    Session.Renews Equipped unused used ∧
      (minimize (parabolaWithin .none) unused).1.toOption = some .stationaryValue ∧
      (minimize (parabolaWithin .none) used).1.toOption = some .stationaryValue ∧
      requests (parabolaWithin .none) unused = requests (parabolaWithin .none) used ∧
      Session.Renews Equipped unadapted adapted ∧
      (minimize (parabolaWithin (.boundary (-1) 1)) unadapted).1.toOption = some .stationaryValue ∧
      (minimize (parabolaWithin (.boundary (-1) 1)) adapted).1.toOption = some .stationaryValue ∧
      requests (parabolaWithin (.boundary (-1) 1)) unadapted =
        requests (parabolaWithin (.boundary (-1) 1)) adapted := by
  have hused : Session.Renews Equipped unused used :=
    ⟨rfl, rfl, rfl, rfl, rfl, rfl, rfl, .descent ⟨rfl, rfl⟩⟩
  have hadapted : Session.Renews Equipped unadapted adapted :=
    ⟨rfl, rfl, rfl, rfl, rfl, rfl, rfl, .evolution ⟨rfl, rfl⟩⟩
  obtain ⟨hanswer, hrequests, -⟩ := minimize_repeats (parabolaWithin .none) hused
  obtain ⟨hanswer', hrequests', -⟩ :=
    minimize_repeats (parabolaWithin (.boundary (-1) 1)) hadapted
  have hrun : (minimize (parabolaWithin .none) unused).1.toOption = some .stationaryValue := by
    decide +kernel
  have hrun' : (minimize (parabolaWithin (.boundary (-1) 1)) unadapted).1.toOption =
      some .stationaryValue := by
    decide +kernel
  exact ⟨hused, hrun, by rw [← hanswer, hrun], hrequests, hadapted, hrun',
    by rw [← hanswer', hrun'], hrequests'⟩

end Method

end Minima
