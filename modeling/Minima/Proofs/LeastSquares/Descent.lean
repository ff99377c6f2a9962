import Minima.Proofs.Double
import Minima.Proofs.LeastSquares.Comparison
import Minima.Proofs.LeastSquares.Target
import Minima.Proofs.Norm

/-!
# Descent of the least squares run

Between two passes the target stands at the last accepted point, and the account
holds the objective there.  A trial leaves the point; both are put back unless it
is accepted, and then the residuals have become shorter.  So wherever a run ends
without being cut off, the target is at a point that was accepted, or at the
start.
-/

namespace Minima.Solver

open OrderedScalar

variable {τ α : Type} [Scalar α]

/-- The target is at `x`, and the objective is that of residuals of the given length. -/
structure Account.Rests (t : Target τ α) (valid : τ → Prop) (x : Vec α) (length : α)
    (a : Account τ α) : Prop where
  target : t.At valid x a.target
  objective : a.objective = some (halfSquare length)

structure Iterate.Measured (residuals : Vec α → Option (Vec α)) (norm : Norm) (it : Iterate α) :
    Prop where
  residuals_eq : residuals it.x = some it.residuals
  norm_eq : it.norm = norm.length it.residuals

def Iterate.ofResiduals (norm : Norm) (x r : Vec α) : Iterate α := ⟨x, r, norm.length r⟩

theorem Iterate.measured_ofResiduals {residuals : Vec α → Option (Vec α)} {norm : Norm}
    {x r : Vec α} (h : residuals x = some r) : (ofResiduals norm x r).Measured residuals norm :=
  ⟨h, rfl⟩

structure Iterate.Below (residuals : Vec α → Option (Vec α)) (norm : Norm)
    (it origin : Iterate α) : Prop where
  measured : it.Measured residuals norm
  descended : it = origin ∨ it.norm < origin.norm

def Cut (valid : τ → Prop) (reason : Termination) (a : Account τ α) : Prop :=
  reason.cutsOff = true ∧ valid a.target

/-- How a run from `origin` may end: cut off, or at one of its iterates.  Unless the input
is bad, the length at the start is known to be defined. -/
def Settled (t : Target τ α) (valid : τ → Prop) (residuals : Vec α → Option (Vec α)) (norm : Norm)
    (origin : Iterate α) (reason : Termination) (a : Account τ α) : Prop :=
  Cut valid reason a ∨
    ∃ it : Iterate α, it.Below residuals norm origin ∧ a.Rests t valid it.x it.norm ∧
      (reason.badInput = true ∨ origin.norm ≤ origin.norm)

structure Stands (t : Target τ α) (valid : τ → Prop) (residuals : Vec α → Option (Vec α))
    (norm : Norm) (origin it : Iterate α) (a : Account τ α) : Prop where
  below : it.Below residuals norm origin
  rests : a.Rests t valid it.x it.norm
  finite : Scalar.isFinite it.norm = true
  positive : Scalar.smallest < it.norm

variable {t : Target τ α} {valid : τ → Prop} {residuals : Vec α → Option (Vec α)} {norm : Norm}
  {s : Solver α} {a : Account τ α}

/-! ## Stages at rest -/

theorem leads_evaluate (answers : t.Answers valid residuals) {x : Vec α}
    (h : t.At valid x a.target) :
    Leads (evaluate norm t) a
      (fun r a' => residuals x = some r ∧ a'.Rests t valid x (norm.length r))
      (Cut valid) := by
  obtain ⟨hanswer, hat⟩ := answers.residuals h
  unfold evaluate
  simp only [leads_bind, leads_modify, leads_call, hanswer]
  cases hr : residuals x with
  | none => exact ⟨rfl, hat.valid⟩
  | some r => exact ⟨rfl, hat, rfl⟩

theorem leads_jacobian (answers : t.Answers valid residuals) {it : Iterate α} {length : α}
    (h : a.Rests t valid it.x length) :
    Leads (s.jacobian t it) a (fun _ a' => a'.Rests t valid it.x length) (fun _ _ => False) := by
  unfold jacobian
  split
  · exact ⟨answers.jacobian h.target, h.objective⟩
  · rename_i epsfcn _
    exact ⟨answers.forwardJacobian it.x it.residuals epsfcn h.target.valid, h.objective⟩

theorem leads_linearise (answers : t.Answers valid residuals) {it : Iterate α} {length : α}
    (h : a.Rests t valid it.x length) :
    Leads (s.linearise norm t it) a (fun _ a' => a'.Rests t valid it.x length)
      (fun reason a' => Cut valid reason a' ∨ a'.Rests t valid it.x length) := by
  unfold linearise
  rw [leads_bind]
  refine (leads_jacobian answers h).mono (fun answer a' hrests => ?_) (fun _ _ => False.elim)
  cases answer with
  | none => exact .inl ⟨rfl, hrests.target.valid⟩
  | some matrix =>
      have hcut {what : Subject} : Cut valid (.numerical what) a' := ⟨rfl, hrests.target.valid⟩
      simp only [leads_ite, leads_bind, leads_throw]
      refine ⟨fun _ => .inl ⟨rfl, hrests.target.valid⟩, fun _ => ⟨fun _ => .inl hcut, fun _ => ?_⟩⟩
      split
      · simp only [leads_ite, leads_bind, leads_throw, leads_pure]
        exact ⟨fun _ => .inr hrests, fun _ => hrests⟩
      · exact .inl hcut

theorem leads_checkTrial {c : Comparison α} {cosine length radius scale : α} :
    Leads (s.checkTrial c cosine length radius scale) a
      (fun _ a' => a' = a ∧ ¬ length ≤ Scalar.smallest) (fun _ a' => a' = a) := by
  unfold checkTrial
  simp only [leads_ite, leads_bind, leads_throw, leads_pure, leads_get]
  grind

theorem leads_accept {cosine : α} {p : Proposal α} (h : a.Rests t valid p.point.x p.point.norm) :
    Leads (s.accept norm cosine p) a
      (fun _ a' => a' = a ∧ ¬ p.point.norm ≤ Scalar.smallest)
      (fun reason a' => Cut valid reason a' ∨ a'.Rests t valid p.point.x p.point.norm) := by
  unfold accept
  simp only [leads_ite, leads_bind, leads_throw, leads_pure]
  refine ⟨fun _ => .inl ⟨rfl, h.target.valid⟩, fun _ => leads_checkTrial.imp_stop ?_⟩
  rintro _ _ rfl
  exact .inr h

theorem leads_reject (answers : t.Answers valid residuals) {here : Position α} {p : Proposal α}
    (h : valid a.target) :
    Leads (s.reject t here p) a
      (fun _ a' => a'.Rests t valid here.iterate.x here.iterate.norm)
      (fun _ a' => a'.Rests t valid here.iterate.x here.iterate.norm) := by
  have hat := answers.setParams here.iterate.x h
  unfold reject
  simp only [leads_bind, leads_call, leads_modify]
  refine leads_checkTrial.mono ?_ ?_
  · rintro _ _ ⟨rfl, -⟩
    exact ⟨hat, rfl⟩
  · rintro _ _ rfl
    exact ⟨hat, rfl⟩

/-! ## A pass -/

variable [OrderedScalar α] {origin : Iterate α}

theorem Iterate.Measured.length_nonneg {it : Iterate α} (h : it.Measured residuals norm)
    (hdefined : it.norm ≤ it.norm) : 0 ≤ it.norm := by
  rw [h.norm_eq] at hdefined ⊢
  exact norm.length_nonneg hdefined

theorem Iterate.Below.le (horigin : origin.norm ≤ origin.norm) {it : Iterate α}
    (h : it.Below residuals norm origin) : it.norm ≤ origin.norm := by
  rcases h.descended with rfl | hlt
  · exact horigin
  · exact le_of_lt hlt

theorem Iterate.Below.step {it next : Iterate α} (h : it.Below residuals norm origin)
    (hmeasured : next.Measured residuals norm) (hlt : next.norm < it.norm) :
    next.Below residuals norm origin := by
  refine ⟨hmeasured, .inr ?_⟩
  rcases h.descended with rfl | horigin
  · exact hlt
  · exact lt_trans hlt horigin

theorem Stands.origin_defined {it : Iterate α} (h : Stands t valid residuals norm origin it a) :
    origin.norm ≤ origin.norm := by
  rcases h.below.descended with rfl | hlt
  · exact le_refl_of_isFinite h.finite
  · exact le_refl_right (le_of_lt hlt)

theorem Stands.settled {it next : Iterate α} {a' : Account τ α}
    (h : Stands t valid residuals norm origin it a) (hbelow : next.Below residuals norm origin)
    (hrests : a'.Rests t valid next.x next.norm) (reason : Termination) :
    Settled t valid residuals norm origin reason a' :=
  .inr ⟨next, hbelow, hrests, .inr h.origin_defined⟩

theorem Stands.step {it next : Iterate α} {a' : Account τ α}
    (h : Stands t valid residuals norm origin it a) (hmeasured : next.Measured residuals norm)
    (hlt : next.norm < it.norm) (hrests : a'.Rests t valid next.x next.norm)
    (hpositive : ¬ next.norm ≤ Scalar.smallest) :
    Stands t valid residuals norm origin next a' := by
  have hdefined := le_refl_left (le_of_lt hlt)
  have hsmallest : Scalar.smallest < next.norm :=
    lt_of_not_le (le_refl_of_isFinite isFinite_smallest) hdefined hpositive
  exact {
    below := h.below.step hmeasured hlt
    rests := hrests
    finite := isFinite_of_le_of_le isFinite_smallest h.finite (le_of_lt hsmallest) (le_of_lt hlt)
    positive := hsmallest
  }

theorem leads_propose (answers : t.Answers valid residuals) {here : Position α}
    (h : Stands t valid residuals norm origin here.iterate a) :
    Leads (propose norm t here) a
      (fun p a' => p.point.Measured residuals norm ∧ a'.Rests t valid p.point.x p.point.norm ∧
        (p.accepted = true → p.point.norm < here.iterate.norm))
      (Cut valid) := by
  unfold propose
  simp only [leads_ite, leads_bind, leads_throw, leads_pure, leads_call]
  refine ⟨fun _ => ⟨rfl, h.rests.target.valid⟩, fun _ => ?_⟩
  refine (leads_evaluate answers (answers.setParams _ h.rests.target.valid)).mono ?_
    (fun _ _ h => h)
  rintro r a' ⟨hr, hrests⟩
  refine ⟨fun _ => ⟨rfl, hrests.target.valid⟩, fun _ => ?_⟩
  refine (leads_compare (lt_trans zero_lt_smallest h.positive) h.finite).mono ?_ ?_
  rotate_left
  · rintro reason _ ⟨hcut, rfl⟩
    exact ⟨hcut, hrests.target.valid⟩
  rintro c a'' ⟨rfl, hlt⟩
  refine ⟨⟨hr, rfl⟩, hrests, fun haccepted => hlt ?_⟩
  exact of_decide_eq_true haccepted

theorem leads_pass (answers : t.Answers valid residuals) {here : Position α}
    (h : Stands t valid residuals norm origin here.iterate a) :
    Leads (s.pass norm t here) a
      (fun next a' => Stands t valid residuals norm origin next.iterate a')
      (Settled t valid residuals norm origin) := by
  unfold pass
  simp only [leads_ite, leads_bind, leads_pure]
  refine (leads_propose answers h).mono ?_ (fun _ _ => .inl)
  rintro p a' ⟨hmeasured, hrests, hlt⟩
  constructor
  · intro haccepted
    have hbelow := h.below.step hmeasured (hlt haccepted)
    refine (leads_accept hrests).mono ?_
      fun reason _ hend => hend.elim .inl fun hrests => h.settled hbelow hrests reason
    rintro trust _ ⟨rfl, hpositive⟩
    refine (leads_linearise answers hrests).mono (fun lin a' hrests => ?_)
      fun reason _ hend => hend.elim .inl fun hrests => h.settled hbelow hrests reason
    exact h.step hmeasured (hlt haccepted) hrests hpositive
  · intro _
    refine (leads_reject answers hrests.target.valid).mono (fun _ _ hback => ?_)
      (fun reason _ hback => h.settled h.below hback reason)
    exact { h with rests := hback }

theorem leads_passes (answers : t.Answers valid residuals) (more : Nat) {here : Position α}
    (h : Stands t valid residuals norm origin here.iterate a) :
    Leads (s.passes norm t more here) a (Settled t valid residuals norm origin)
      (Settled t valid residuals norm origin) := by
  induction more generalizing here a with
  | zero => exact h.settled h.below h.rests _
  | succ more ih =>
      unfold passes
      rw [leads_bind]
      exact (leads_pass answers h).mono (fun _ _ hnext => ih hnext) (fun _ _ hend => hend)

/-! ## The run -/

theorem leads_start (answers : t.Answers valid residuals) (h : t.At valid origin.x a.target)
    (horigin : origin.Measured residuals norm) :
    Leads (start norm t) a
      (fun it a' => Stands t valid residuals norm origin it a')
      (Settled t valid residuals norm origin) := by
  unfold start
  simp only [leads_ite, leads_bind, leads_throw, leads_pure, leads_get]
  refine (leads_evaluate answers h).mono ?_ (fun _ _ => .inl)
  rintro r a' ⟨hr, hrests⟩
  rw [h.params]
  obtain rfl : origin.residuals = r := Option.some.inj (horigin.residuals_eq.symm.trans hr)
  rw [← horigin.norm_eq] at hrests ⊢
  have hbelow : origin.Below residuals norm origin := ⟨horigin, .inl rfl⟩
  refine ⟨fun _ => .inr ⟨origin, hbelow, hrests, .inl rfl⟩, fun _ =>
    ⟨fun _ => .inr ⟨origin, hbelow, hrests, .inl rfl⟩, fun _ =>
      ⟨fun _ => .inl ⟨rfl, hrests.target.valid⟩, fun hfinite =>
        ⟨fun hzero => .inr ⟨origin, hbelow, hrests, .inr (le_refl_left hzero)⟩,
          fun hpositive => ?_⟩⟩⟩⟩
  simp only [Bool.not_eq_eq_eq_not, Bool.not_true, Bool.not_eq_false] at hfinite
  exact {
    below := hbelow
    rests := hrests
    finite := hfinite
    positive := lt_of_not_le (le_refl_of_isFinite isFinite_smallest) (le_refl_of_isFinite hfinite)
      hpositive
  }

theorem leads_setUp (answers : t.Answers valid residuals) (h : t.At valid origin.x a.target)
    (horigin : origin.Measured residuals norm) :
    Leads (s.setUp norm t) a
      (fun here a' => Stands t valid residuals norm origin here.iterate a')
      (Settled t valid residuals norm origin) := by
  unfold setUp
  simp only [leads_bind, leads_pure]
  refine (leads_start answers h horigin).mono ?_ (fun _ _ h => h)
  intro it a' hstands
  refine (leads_linearise answers hstands.rests).mono (fun lin a'' hrests => ?_)
    fun reason _ hend => hend.elim .inl fun hrests => hstands.settled hstands.below hrests reason
  unfold firstTrust
  simp only [leads_ite, leads_bind, leads_throw, leads_pure]
  exact ⟨fun _ => .inl ⟨rfl, hrests.target.valid⟩, fun _ => { hstands with rests := hrests }⟩

theorem leads_run (answers : t.Answers valid residuals) (h : t.At valid origin.x a.target)
    (horigin : origin.Measured residuals norm) :
    Leads (s.run norm t) a (Settled t valid residuals norm origin)
      (Settled t valid residuals norm origin) := by
  unfold run
  rw [leads_bind]
  exact (leads_setUp answers h horigin).mono (fun _ _ hstands => leads_passes answers _ hstands)
    (fun _ _ hend => hend)

/-- However a run ends, the target is in a valid state, and unless the run was cut off it
is at one of the iterates. -/
theorem minimize_settles (answers : t.Answers valid residuals) {start finish : τ} {r : Vec α}
    {report : Report α} (hstart : valid start) (hr : residuals (t.params start) = some r)
    (hrun : s.minimize norm t start = (report, finish)) :
    valid finish ∧ (report.termination.cutsOff = false →
      ∃ it : Iterate α, it.Below residuals norm (.ofResiduals norm (t.params start) r) ∧
        t.At valid it.x finish ∧ report.objective = some (halfSquare it.norm) ∧
        (report.termination.badInput = true ∨ norm.length r ≤ norm.length r)) := by
  obtain ⟨a, hsettled, hobjective, rfl⟩ :=
    minimize_of_leads (leads_run answers ⟨hstart, rfl⟩ (Iterate.measured_ofResiduals hr)) hrun
  rcases hsettled with ⟨hcut, hvalid⟩ | ⟨it, hbelow, hrests, hdefined⟩
  · refine ⟨hvalid, fun hend => ?_⟩
    rw [hcut] at hend
    contradiction
  · exact ⟨hrests.target.valid,
      fun _ => ⟨it, hbelow, hrests.target, hobjective.trans hrests.objective, hdefined⟩⟩

/-! ## Positions of a run -/

omit [OrderedScalar α] in
theorem pass_iterate {here next : Position α} {p : Proposal α} {a' a'' : Account τ α}
    (hpropose : propose norm t here a = (.ok p, a'))
    (hpass : s.pass norm t here a = (.ok next, a'')) :
    next.iterate = if p.accepted then p.point else here.iterate := by
  have hleads : Leads (s.pass norm t here) a
      (fun next _ => next.iterate = if p.accepted then p.point else here.iterate)
      (fun _ _ => True) := by
    unfold pass
    rw [leads_bind]
    refine leads_of_ok hpropose ?_
    simp only [leads_ite, leads_bind, leads_pure]
    constructor
    · intro haccepted
      refine (leads_true _ _).mono (fun trust a' _ => ?_) (fun _ _ h => h)
      refine (leads_true _ _).mono (fun lin a' _ => ?_) (fun _ _ h => h)
      rw [if_pos haccepted]
    · intro hrejected
      refine (leads_true _ _).mono (fun _ a' _ => ?_) (fun _ _ h => h)
      rw [if_neg hrejected]
  exact hleads.of_ok hpass

/-- The positions of a run from `start` between its passes, with the account there. -/
inductive Reaches (s : Solver α) (norm : Norm) (t : Target τ α) (start : τ) :
    Position α → Account τ α → Prop
  | setUp {here : Position α} {a : Account τ α} :
      s.setUp norm t ⟨start, 0, none⟩ = (.ok here, a) → Reaches s norm t start here a
  | pass {here next : Position α} {a a' : Account τ α} :
      Reaches s norm t start here a → s.pass norm t here a = (.ok next, a') →
        Reaches s norm t start next a'

theorem Reaches.stands (answers : t.Answers valid residuals) {start : τ} {r : Vec α}
    (hstart : valid start) (hr : residuals (t.params start) = some r) {here : Position α}
    (h : s.Reaches norm t start here a) :
    Stands t valid residuals norm (.ofResiduals norm (t.params start) r) here.iterate a := by
  have horigin : Iterate.Measured residuals norm (.ofResiduals norm (t.params start) r) :=
    Iterate.measured_ofResiduals hr
  induction h with
  | setUp hrun => exact (leads_setUp answers ⟨hstart, rfl⟩ horigin).of_ok hrun
  | pass _ hrun ih => exact (leads_pass answers ih).of_ok hrun

/-- For a target whose residuals depend on its parameters alone: a run that is not cut
off leaves the target where the residuals give the reported objective, which is not above
that of the start, and every accepted step makes the residuals shorter. -/
theorem minimize_descends (s : Solver Float) (norm : Norm) {τ : Type} {t : Target τ Float}
    {valid : τ → Prop} {residuals : Vec Float → Option (Vec Float)}
    (answers : t.Answers valid residuals) {start : τ} {r₀ : Vec Float} (hstart : valid start)
    (hr₀ : residuals (t.params start) = some r₀)
    (hfinite : Scalar.isFinite (norm.length r₀) = true) :
    (∀ report finish, s.minimize norm t start = (report, finish) →
      report.termination.cutsOff = false →
        ∃ r, residuals (t.params finish) = some r ∧
          report.objective = some (halfSquare (norm.length r)) ∧
          halfSquare (norm.length r) ≤ halfSquare (norm.length r₀)) ∧
      ∀ here a p a', s.Reaches norm t start here a → propose norm t here a = (.ok p, a') →
        here.iterate.Measured residuals norm ∧ p.point.Measured residuals norm ∧
          t.At valid p.point.x a'.target ∧
          (p.accepted = true → p.point.norm < here.iterate.norm) ∧
          ∀ next a'', s.pass norm t here a = (.ok next, a'') →
            next.iterate = if p.accepted then p.point else here.iterate := by
  constructor
  · intro report finish hrun hend
    obtain ⟨it, hbelow, hat, hobjective, -⟩ := (minimize_settles answers hstart hr₀ hrun).2 hend
    have hle := hbelow.le (le_refl_of_isFinite hfinite)
    have hnonneg := hbelow.measured.length_nonneg (le_refl_left hle)
    rw [hat.params]
    refine ⟨it.residuals, hbelow.measured.residuals_eq, ?_⟩
    rw [← hbelow.measured.norm_eq]
    exact ⟨hobjective, halfSquare_le hnonneg hle⟩
  · intro here a p a' hreaches hpropose
    have hstands := hreaches.stands answers hstart hr₀
    obtain ⟨hmeasured, hrests, hlt⟩ := (leads_propose answers hstands).of_ok hpropose
    exact ⟨hstands.below.measured, hmeasured, hrests.target, hlt,
      fun _ _ hpass => pass_iterate hpropose hpass⟩

def line : Target (Vec Float) Float := Target.ofFunctions some fun _ => some ⟨1, [[1]]⟩

theorem minimize_descends_line :
    (∃ r, some (line.params (new.minimize .plain line [1]).2) = some r ∧
      (new.minimize .plain line [1]).1.objective = some (halfSquare (Norm.plain.length r)) ∧
      halfSquare (Norm.plain.length r) ≤ halfSquare (Norm.plain.length [(1 : Float)])) ∧
      ∃ here a p a', new.Reaches .plain line [1] here a ∧
        propose .plain line here a = (.ok p, a') ∧ p.accepted = true ∧
        p.point.norm < here.iterate.norm := by
  have hanswers : line.Answers (fun _ => True) some := Target.ofFunctions_answers _ _
  have hresiduals : some (line.params [1]) = some [1] := rfl
  obtain ⟨hreport, hsteps⟩ :=
    minimize_descends new .plain hanswers trivial hresiduals (by decide +kernel)
  constructor
  · exact hreport _ _ Prod.mk.eta.symm (by decide +kernel)
  · have haccepted : (match (new.setUp .plain line >>= propose .plain line) ⟨[1], 0, none⟩ with
        | (.ok p, _) => p.accepted
        | (.error _, _) => false) = true := by
      decide +kernel
    rcases hrun : (new.setUp .plain line >>= propose .plain line) ⟨[1], 0, none⟩ with ⟨result, a'⟩
    rw [hrun] at haccepted
    cases result with
    | error reason => contradiction
    | ok p =>
        obtain ⟨here, a, hsetUp, hpropose⟩ := bind_eq_ok hrun
        have hreaches : new.Reaches .plain line [1] here a := .setUp hsetUp
        obtain ⟨-, -, -, hlt, -⟩ := hsteps here a p a' hreaches hpropose
        exact ⟨here, a, p, a', hreaches, hpropose, haccepted, hlt haccepted⟩

end Minima.Solver
