import Minima.Double
import Minima.Proofs.LineSearch
import Minima.Proofs.StoppingRule
import Minima.Region.Constraint

/-!
# Where a descent ends

Between two searches a run stands at a point that it accepted, or at its start,
and the progress holds the value and the norm that belong to this point.  A search
does not move it.  So wherever a run breaks off it leaves such a point, and no
request ever leaves the region.  Nothing depends on the strategy.
-/

namespace Minima.Descent

open LineSearch

variable {κ σ α : Type} [Scalar α] {P : Problem σ α} {value : Vec α → Checked α α}
  {gradient : Vec α → Checked α (Vec α)} {Q : σ → Prop} {stand : Stand α} {i : Nat}

/-! ## Stands and the progress there -/

def Stand.settled (stand : Stand α) (p : Progress σ α) : Progress σ α :=
  { p with
    point := stand.visited.x
    value := some stand.value
    gradientNormSq := some stand.visited.gradientNormSq }

def Stand.ofResult (r : SearchResult α) (direction : Vec α) : Stand α :=
  ⟨⟨r.x, r.gradient, r.gradientNormSq⟩, r.value, direction, r.step⟩

/-- The stand is in the region, and what it holds belongs to its point. -/
structure Stand.Measured (P : Problem σ α) (value : Vec α → Checked α α)
    (gradient : Vec α → Checked α (Vec α)) (stand : Stand α) : Prop where
  feasible : P.region.contains stand.visited.x = true
  value_eq : value stand.visited.x = .ok stand.value
  gradient_eq : gradient stand.visited.x = .ok stand.visited.gradient
  gradientNormSq_eq : stand.visited.gradientNormSq = Vec.normSq stand.visited.gradient

theorem Stand.Measured.rests (h : stand.Measured P value gradient) (p : Progress σ α) :
    (stand.settled p).Rests P value gradient where
  feasible := h.feasible
  value_eq := by rintro _ ⟨⟩; exact h.value_eq
  gradientNormSq_eq := by rintro _ ⟨⟩; exact ⟨_, h.gradient_eq, h.gradientNormSq_eq⟩

theorem measured_ofResult {S : α → Prop} {r : SearchResult α} (h : Found P value gradient S r)
    (direction : Vec α) : (Stand.ofResult r direction).Measured P value gradient :=
  ⟨h.feasible, h.value_eq, h.gradient_eq, h.gradientNormSq_eq⟩

structure Stands (P : Problem σ α) (value : Vec α → Checked α α)
    (gradient : Vec α → Checked α (Vec α)) (Q : σ → Prop) (stand : Stand α)
    (p : Progress σ α) : Prop where
  measured : stand.Measured P value gradient
  settled_eq : stand.settled p = p
  allowed : Q p.oracle

variable {p p' : Progress σ α}

theorem Stands.rests (h : Stands P value gradient Q stand p) : p.Rests P value gradient := by
  rw [← h.settled_eq]
  exact h.measured.rests p

theorem Stands.point_eq (h : Stands P value gradient Q stand p) : p.point = stand.visited.x := by
  rw [← h.settled_eq]
  rfl

theorem Stands.stays_settled (h : Stands P value gradient Q stand p) (hstays : p.Stays Q p') :
    p.Stays Q (stand.settled p') where
  point_eq := (congrArg Progress.point h.settled_eq :)
  value_eq := (congrArg Progress.value h.settled_eq :)
  gradientNormSq_eq := (congrArg Progress.gradientNormSq h.settled_eq :)
  allowed := hstays.allowed

variable [Directions κ α] {origin s s' : Session σ (DescentBy κ α) α}

/-! ## Steps of a run -/

theorem leads_searchFrom (evaluates : P.objective.Evaluates value gradient) (allows : P.Allows Q)
    {S : α → Prop} (half : ∀ s, S s → S (s * 0.5)) (keeps : s.memory.search.Keeps S)
    (hstands : Stands P value gradient Q stand s.progress)
    (hstep : ∀ step, Directions.initialStep s.memory.strategy stand.step stand.visited.gradient
      stand.direction = .ok step → S step) :
    Leads (searchFrom P stand) s
      (fun r s' => s.memory.search.Answers P value gradient S s.progress stand.direction r ∧
        s.progress.Stays Q s'.progress ∧ s'.memory = s.memory)
      (fun _ s' => s.progress.Stays Q s'.progress) := by
  unfold searchFrom
  rw [leads_bind, leads_get, leads_bind, leads_attempt]
  cases hinitial : Directions.initialStep s.memory.strategy stand.step stand.visited.gradient
      stand.direction with
  | error failure => exact .refl hstands.allowed
  | ok step =>
      simp only [leads_work]
      exact (leads_search s.memory.search evaluates allows half keeps hstands.rests hstands.allowed
        s.rule.maxIterations stand.direction (hstep step hinitial)).mono
        (fun r p' h => ⟨h.1, h.2, trivial⟩) (fun _ _ h => h)

theorem leads_nextDirection (stand : Stand α) (current : Visited α) :
    Leads (nextDirection stand current) s
      (fun _ s' => s'.progress = s.progress ∧ s'.memory.search = s.memory.search)
      (fun _ s' => s'.progress = s.progress) := by
  unfold nextDirection resetStrategy Run.remember
  simp only [leads_bind, leads_get, leads_attempt]
  split
  · simp only [leads_modify]
    split
    · simp only [leads_ite, leads_bind, leads_modify, leads_pure]
      exact ⟨fun _ => ⟨trivial, trivial⟩, fun _ => ⟨trivial, trivial⟩⟩
    · trivial
  · trivial

/-- What follows a search: back to the stand, or on to the one that was found, where the run
may end or go on.  Which of these is up to the rule, which is not looked at here. -/
theorem leads_advance {post : Option (Stand α) → Session σ (DescentBy κ α) α → Prop}
    {stop : Failure α → Session σ (DescentBy κ α) α → Prop}
    (h : Leads (searchFrom P stand) s
      (fun r s₁ =>
        (r.succeeded = false → ∀ rule, post none ⟨stand.settled s₁.progress, rule, s₁.memory⟩) ∧
        (r.succeeded = true →
          Leads (nextDirection stand ⟨r.x, r.gradient, r.gradientNormSq⟩) s₁
            (fun direction s₂ => ∀ rule, ∀ next ∈ [none, some (Stand.ofResult r direction)],
              post next ⟨(Stand.ofResult r direction).settled s₂.progress, rule, s₂.memory⟩)
            stop))
      stop) :
    Leads (advance P i stand) s post stop := by
  unfold advance
  rw [leads_bind]
  refine h.mono (fun r s₁ h => ?_) (fun _ _ h => h)
  rw [leads_ite]
  constructor
  · intro hfailed
    have hback := h.1 (by simpa using hfailed)
    unfold Run.outcome Run.mark Problem.settleWithGradient
    simp only [leads_bind, leads_get, leads_pure, leads_ite, leads_modify, leads_work]
    exact ⟨fun _ => hback _, fun _ => hback _⟩
  · intro hsucceeded
    rw [leads_bind]
    refine (h.2 (by simpa using hsucceeded)).mono (fun direction s₂ hnext => ?_) (fun _ _ h => h)
    have hend := fun rule => hnext rule none (by simp)
    have hmore := fun rule => hnext rule (some (Stand.ofResult r direction)) (by simp)
    unfold Run.mark Problem.settleWithGradient
    simp only [leads_bind, leads_get, leads_pure, leads_ite, leads_modify, leads_work, leads_check]
    exact ⟨fun _ => ⟨fun _ => hend _, fun _ => hmore _⟩,
      fun _ => ⟨fun _ => hend _, fun _ => hmore _⟩⟩

def evaluateStart (P : Problem σ α) (x : Vec α) : Run σ (DescentBy κ α) α (Stand α) := do
  let (value, gradient) ← Run.work (P.valueAndGradient x)
  let gradientNormSq := Vec.normSq gradient
  Run.work (Problem.settleWithGradient x value gradientNormSq)
  resetStrategy x.length
  return ⟨⟨x, gradient, gradientNormSq⟩, value, Vec.neg gradient, 1⟩

theorem leads_start (evaluates : P.objective.Evaluates value gradient) (allows : P.Allows Q)
    (hQ : Q s.progress.oracle) :
    Leads (start P) s
      (fun stand s' => Stands P value gradient Q stand s'.progress ∧
        stand.visited.x = s.progress.point ∧ s'.memory.search = s.memory.search ∧
        s'.memory.strategy = Directions.reset s.progress.point.length s.memory.strategy ∧
        stand.direction = Vec.neg stand.visited.gradient ∧ stand.step = 1)
      (fun _ s' => s.progress.reset.Stays Q s'.progress) := by
  unfold start Run.reset resetStrategy Run.remember Problem.settleWithGradient
  simp only [leads_bind, leads_modify, leads_get, leads_ite, leads_throw, leads_work, leads_pure]
  refine ⟨fun _ => .refl hQ, fun hcontains => ?_⟩
  have hfeasible : P.region.contains s.progress.point = true := by
    simpa [Progress.reset] using hcontains
  refine (leads_valueAndGradient (p := s.progress.reset) evaluates allows hfeasible hQ).mono
    (fun vg p h => ?_) (fun _ _ h => h)
  refine ⟨?_, rfl, trivial, rfl, trivial, trivial⟩
  exact {
    measured := ⟨hfeasible, h.1.1, h.1.2, rfl⟩
    settled_eq := rfl
    allowed := h.2.allowed
  }

/-! ## Runs -/

/-- The stands of a run from `origin`, with the number of the iteration and the session there. -/
inductive Reaches (P : Problem σ α) (origin : Session σ (DescentBy κ α) α) :
    Nat → Stand α → Session σ (DescentBy κ α) α → Prop
  | start {stand : Stand α} {s : Session σ (DescentBy κ α) α} :
      start P origin = (.ok stand, s) → Reaches P origin 0 stand s
  | advance {i : Nat} {stand next : Stand α} {s s' : Session σ (DescentBy κ α) α} :
      Reaches P origin i stand s → advance P i stand s = (.ok (some next), s') →
        Reaches P origin (i + 1) next s'

/-- The start of a run, or a point that one of its searches found with success. -/
def Accepted (P : Problem σ α) (origin : Session σ (DescentBy κ α) α) (x : Vec α) : Prop :=
  x = origin.progress.point ∨
    ∃ i stand s r s', Reaches P origin i stand s ∧ searchFrom P stand s = (.ok r, s') ∧
      r.succeeded = true ∧ x = r.x

/-- What every run from `origin` leaves behind. -/
structure Ended (P : Problem σ α) (value : Vec α → Checked α α)
    (gradient : Vec α → Checked α (Vec α)) (Q : σ → Prop) (origin : Session σ (DescentBy κ α) α)
    (p : Progress σ α) : Prop where
  rests : p.Rests P value gradient
  accepted : Accepted P origin p.point
  allowed : Q p.oracle

theorem Ended.of_stays (h : Ended P value gradient Q origin p) (hstays : p.Stays Q p') :
    Ended P value gradient Q origin p' where
  rests := h.rests.of_stays hstays
  accepted := by rw [hstays.point_eq]; exact h.accepted
  allowed := hstays.allowed

theorem Stands.ended (h : Stands P value gradient Q stand p)
    (haccepted : Accepted P origin stand.visited.x) : Ended P value gradient Q origin p :=
  ⟨h.rests, by rw [h.point_eq]; exact haccepted, h.allowed⟩

theorem keeps_true (search : LineSearch α) : search.Keeps fun _ => True := by
  cases search with
  | backtracking b => exact fun _ _ => trivial
  | bracketing b => exact ⟨trivial, fun _ _ => trivial, fun _ _ _ _ => trivial⟩

theorem leads_advance_of_stands (evaluates : P.objective.Evaluates value gradient)
    (allows : P.Allows Q) (hreaches : Reaches P origin i stand s)
    (hstands : Stands P value gradient Q stand s.progress)
    (haccepted : Accepted P origin stand.visited.x) :
    Leads (advance P i stand) s
      (fun next s' => Ended P value gradient Q origin s'.progress ∧
        ∀ stand' ∈ next, Stands P value gradient Q stand' s'.progress ∧
          Accepted P origin stand'.visited.x)
      (fun _ s' => Ended P value gradient Q origin s'.progress) := by
  have hhere := hstands.ended haccepted
  apply leads_advance
  refine (leads_searchFrom evaluates allows (fun _ _ => trivial) (keeps_true _) hstands
    (fun _ _ => trivial)).mono_run (fun r s₁ hrun h => ⟨fun _ rule => ?_, fun hsucceeded => ?_⟩)
    (fun _ s₁ _ h => hhere.of_stays h)
  · exact ⟨hhere.of_stays (hstands.stays_settled h.2.1), nofun⟩
  · refine (leads_nextDirection stand _).mono (fun direction s₂ hs₂ rule next hnext => ?_)
      (fun _ s₂ hs₂ => by rw [hs₂]; exact hhere.of_stays h.2.1)
    have hstands' : Stands P value gradient Q (Stand.ofResult r direction)
        ((Stand.ofResult r direction).settled s₂.progress) := {
      measured := measured_ofResult h.1.found direction
      settled_eq := rfl
      allowed := by
        rw [← hs₂.1] at h
        exact h.2.1.allowed
    }
    have haccepted' : Accepted P origin r.x :=
      .inr ⟨i, stand, s, r, s₁, hreaches, hrun, hsucceeded, rfl⟩
    refine ⟨hstands'.ended haccepted', fun stand' hmem => ?_⟩
    simp only [List.mem_cons, List.not_mem_nil, or_false] at hnext
    rcases hnext with rfl | rfl
    · contradiction
    · obtain rfl := Option.mem_some.mp hmem
      exact ⟨hstands', haccepted'⟩

theorem leads_descend (evaluates : P.objective.Evaluates value gradient) (allows : P.Allows Q)
    (more : Nat) (hreaches : Reaches P origin i stand s)
    (hstands : Stands P value gradient Q stand s.progress)
    (haccepted : Accepted P origin stand.visited.x) :
    Leads (descend P more i stand) s
      (fun _ s' => Ended P value gradient Q origin s'.progress)
      (fun _ s' => Ended P value gradient Q origin s'.progress) := by
  induction more generalizing i stand s with
  | zero =>
      unfold descend Run.outcome
      rw [leads_bind]
      refine (leads_advance_of_stands evaluates allows hreaches hstands haccepted).mono
        (fun next s' h => ?_) (fun _ _ h => h)
      cases next with
      | none => exact h.1
      | some stand' => exact h.1
  | succ more ih =>
      unfold descend Run.outcome
      rw [leads_bind]
      refine (leads_advance_of_stands evaluates allows hreaches hstands haccepted).mono_run
        (fun next s' hrun h => ?_) (fun _ _ _ h => h)
      cases next with
      | none => exact h.1
      | some stand' =>
          obtain ⟨hstands', haccepted'⟩ := h.2 stand' rfl
          exact ih (.advance hreaches hrun) hstands' haccepted'

theorem leads_minimize (evaluates : P.objective.Evaluates value gradient) (allows : P.Allows Q)
    (hfeasible : P.region.contains s.progress.point = true) (hQ : Q s.progress.oracle) :
    Leads (minimize P) s
      (fun _ s' => Ended P value gradient Q s s'.progress)
      (fun _ s' => Ended P value gradient Q s s'.progress) := by
  have hreset : Ended P value gradient Q s s.progress.reset := {
    rests := ⟨hfeasible, nofun, nofun⟩
    accepted := .inl rfl
    allowed := hQ
  }
  unfold minimize
  rw [leads_bind]
  refine (leads_start evaluates allows hQ).mono_run (fun stand s' hrun h => ?_)
    (fun _ _ _ h => hreset.of_stays h)
  rw [leads_bind, leads_get]
  exact leads_descend evaluates allows _ (.start hrun) h.1 (.inl h.2.1)

def requests (P : Problem σ α) (s : Session σ (DescentBy κ α) α) : List (Vec α) :=
  (minimize P.traced { s with progress := s.progress.logged }).2.progress.oracle.2

/-- For a cost that depends on the point alone, and any strategy: a run from a feasible point
asks for values and gradients at feasible points only.  However it ends, it leaves its start
or a point that a search accepted; the point is feasible, and the value and the squared norm
of the gradient, where they are stored, are those of this point. -/
theorem minimize_accepted (evaluates : P.objective.Evaluates value gradient)
    (s : Session σ (DescentBy κ α) α) (hfeasible : P.region.contains s.progress.point = true) :
    (∀ x ∈ requests P s, P.region.contains x = true) ∧
      Accepted P s (minimize P s).2.progress.point ∧
      P.region.contains (minimize P s).2.progress.point = true ∧
      (∀ v, (minimize P s).2.progress.value = some v →
        value (minimize P s).2.progress.point = .ok v) ∧
      ∀ n, (minimize P s).2.progress.gradientNormSq = some n →
        ∃ g, gradient (minimize P s).2.progress.point = .ok g ∧ n = Vec.normSq g := by
  have hended := (leads_minimize evaluates P.allows_true hfeasible trivial).final
  refine ⟨?_, hended.accepted, hended.rests.feasible, fun _ => hended.rests.value_eq,
    fun _ => hended.rests.gradientNormSq_eq⟩
  have hempty : ∀ x ∈ s.progress.logged.oracle.2, P.region.contains x = true := by
    simp [Progress.logged]
  exact (leads_minimize (s := { s with progress := s.progress.logged })
    (Objective.traced_evaluates evaluates) P.traced_allows hfeasible hempty).final.allowed

/-! ## A parabola -/

def parabola : Cost α where
  value x := .ok (Vec.dot x x)
  values := none
  gradient := some fun x => .ok (Vec.scale 2.0 x)
  jacobian := none
  step := Objective.usualStep

def fromOne (d : Descent α) : Session (List (Evaluation α)) (Descent α) α where
  progress := .start [] [1]
  rule := ⟨3, 2, 1e-8, 1e-8, 1e-8, .running, 0, Nat.one_lt_two, StoppingRule.two_le_three⟩
  memory := d

def parabolaFromHalf : Problem (List (Evaluation Float)) Float :=
  ⟨parabola.objective, (Constraint.boundary 0.5 2).region⟩

theorem minimize_accepted_parabola :
    parabolaFromHalf.region.contains [1] = true ∧
      (∀ x ∈ requests parabolaFromHalf (fromOne steepest),
        parabolaFromHalf.region.contains x = true) ∧
      Accepted parabolaFromHalf (fromOne steepest)
        (minimize parabolaFromHalf (fromOne steepest)).2.progress.point ∧
      ∃ v, (minimize parabolaFromHalf (fromOne steepest)).2.progress.value = some v ∧ v < 1 ∧
        Cost.answer parabola.value (minimize parabolaFromHalf (fromOne steepest)).2.progress.point =
          .ok v := by
  have hfeasible : parabolaFromHalf.region.contains (fromOne steepest).progress.point = true := by
    decide +kernel
  obtain ⟨hrequests, haccepted, -, hvalue, -⟩ :=
    minimize_accepted (P := parabolaFromHalf) (Cost.objective_evaluates rfl) (fromOne steepest)
      hfeasible
  have hlower : (minimize parabolaFromHalf (fromOne steepest)).2.progress.value.any (· < 1) =
      true := by
    decide +kernel
  refine ⟨hfeasible, hrequests, haccepted, ?_⟩
  cases hv : (minimize parabolaFromHalf (fromOne steepest)).2.progress.value with
  | none =>
      rw [hv] at hlower
      contradiction
  | some v =>
      rw [hv] at hlower
      exact ⟨v, rfl, of_decide_eq_true hlower, hvalue v hv⟩

end Minima.Descent
