import Minima.Proofs.LeastSquares.Descent

/-!
# Trails of the least squares solver

A run is told by the points that it has accepted, the last one first and the start among them.
A trail grows from pass to pass until a stage ends the run.  Nothing here counts the passes, so
that a run with a trail to its end is one that ends by itself.
-/

namespace Minima.Solver

variable {τ α : Type} [Scalar α] {s : Solver α} {norm : Norm} {t : Target τ α} {start : τ}
  {here next : Position α} {a a' : Account τ α} {trail : List (Vec α)}

def Position.attempt (norm : Norm) (here : Position α) : TrustStep α × DampedSystem α :=
  trustStep norm here.linearisation.system here.trust.scaling here.trust.radius here.trust.damping

def Position.step (norm : Norm) (here : Position α) : TrustStep α := (here.attempt norm).1

def Position.trial (norm : Norm) (here : Position α) : Vec α :=
  Vec.sub here.iterate.x (here.step norm).step

def Position.extend (norm : Norm) (t : Target τ α) (here : Position α) (a : Account τ α)
    (trail : List (Vec α)) : List (Vec α) :=
  match (propose norm t here a).1 with
  | .ok p => if p.accepted then p.point.x :: trail else trail
  | .error _ => trail

/-- A run between its passes. -/
inductive Trail (s : Solver α) (norm : Norm) (t : Target τ α) (start : τ) :
    List (Vec α) → Position α → Account τ α → Prop
  | setUp {here : Position α} {a : Account τ α} :
      s.setUp norm t ⟨start, 0, none⟩ = (.ok here, a) → Trail s norm t start [t.params start] here a
  | pass {trail : List (Vec α)} {here next : Position α} {a a' : Account τ α} :
      Trail s norm t start trail here a → s.pass norm t here a = (.ok next, a') →
        Trail s norm t start (here.extend norm t a trail) next a'

/-- A run that a stage has ended. -/
inductive Ended (s : Solver α) (norm : Norm) (t : Target τ α) (start : τ) :
    List (Vec α) → Termination → Account τ α → Prop
  | setUp {reason : Termination} {a : Account τ α} :
      s.setUp norm t ⟨start, 0, none⟩ = (.error reason, a) →
        Ended s norm t start [t.params start] reason a
  | pass {trail : List (Vec α)} {here : Position α} {reason : Termination} {a a' : Account τ α} :
      Trail s norm t start trail here a → s.pass norm t here a = (.error reason, a') →
        Ended s norm t start (here.extend norm t a trail) reason a'

theorem Position.extend_of_ok {p : Proposal α} (h : propose norm t here a = (.ok p, a')) :
    here.extend norm t a trail = if p.accepted then p.point.x :: trail else trail := by
  rw [Position.extend, h]

theorem Position.extend_of_error {reason : Termination}
    (h : propose norm t here a = (.error reason, a')) : here.extend norm t a trail = trail := by
  rw [Position.extend, h]

theorem Trail.reaches (h : s.Trail norm t start trail here a) : s.Reaches norm t start here a := by
  induction h with
  | setUp hrun => exact .setUp hrun
  | pass _ hrun ih => exact .pass ih hrun

theorem leads_setUp_params (s : Solver α) (norm : Norm) (t : Target τ α) (a : Account τ α) :
    Leads (s.setUp norm t) a (fun here _ => here.iterate.x = t.params a.target)
      (fun _ _ => True) := by
  unfold setUp start firstTrust
  simp only [leads_ite, leads_bind, leads_throw, leads_pure, leads_get]
  refine (leads_true _ _).mono (fun r a' _ => ?_) fun _ _ _ => trivial
  refine ⟨fun _ => trivial, fun _ => ⟨fun _ => trivial, fun _ => ⟨fun _ => trivial, fun _ =>
    ⟨fun _ => trivial, fun _ => ?_⟩⟩⟩⟩
  refine (leads_true _ _).mono (fun lin a'' _ => ?_) fun _ _ _ => trivial
  exact ⟨fun _ => trivial, fun _ => trivial⟩

theorem Trail.exists_eq_cons (h : s.Trail norm t start trail here a) :
    ∃ earlier, trail = here.iterate.x :: earlier := by
  induction h with
  | setUp hrun => exact ⟨[], by rw [(leads_setUp_params s norm t _).of_ok hrun]⟩
  | @pass trail here next a a' _ hrun ih =>
      obtain ⟨earlier, rfl⟩ := ih
      obtain ⟨p, b, hpropose, -⟩ := bind_eq_ok hrun
      rw [Position.extend_of_ok hpropose, pass_iterate hpropose hrun]
      split
      · exact ⟨_, rfl⟩
      · exact ⟨earlier, rfl⟩

theorem propose_eq (norm : Norm) (t : Target τ α) (here : Position α) :
    propose norm t here = (do
      if !Scalar.isFinite (here.step norm).length then throw (.numerical .subproblem)
      let radius := if here.trust.first then
        Scalar.min here.trust.radius (here.step norm).length else here.trust.radius
      call (t.setParams (here.trial norm))
      let residuals ← evaluate norm t
      if residuals.length ≠ here.iterate.residuals.length then throw (.wrongDimensions .residuals)
      let after := norm.length residuals
      let c ← compare norm (here.attempt norm).2 (here.step norm) here.iterate.norm after
      let (radius, damping) := adapt c radius (here.step norm) here.iterate.norm after
      return ⟨⟨here.trial norm, residuals, after⟩, c, { here.trust with radius, damping },
        (here.attempt norm).2⟩) :=
  rfl

end Minima.Solver
