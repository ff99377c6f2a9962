import Minima.Proofs.LeastSquares.Stage
import Minima.Proofs.LeastSquares.Sweep

/-!
# Least squares runs that are interrupted

A target may fail to answer.  The solver asks it nothing more then, and ends for the reason that
something is missing; it does so for no other cause.  Forward differences miss an answer as well
where the residuals change their length.
-/

namespace Minima

variable {τ α : Type}

/-- After a call the target is good if it was answered, and else something is missing. -/
def Given {β : Type} (good missing : τ → Prop) : Option β × τ → Prop
  | (some _, s) => good s
  | (none, s) => missing s

/-- Calls leave the target good, until one is not answered and something is missing.  Residuals
are of one kind, and two of the kind with different lengths count as missing. -/
structure Target.Interrupts (t : Target τ α) (good missing : τ → Prop) (fits : Vec α → Prop) :
    Prop where
  good_setParams {s : τ} (x : Vec α) : good s → good (t.setParams x s).2
  missing_setParams {s : τ} (x : Vec α) : missing s → missing (t.setParams x s).2
  residuals {s : τ} : good s → Given good missing (t.residuals s) ∧ ∀ r ∈ (t.residuals s).1, fits r
  jacobian {s : τ} : good s → Given good missing (t.jacobian s)
  mismatch {r r' : Vec α} {s : τ} : fits r → fits r' → r.length ≠ r'.length → good s → missing s

variable {t : Target τ α} {good missing : τ → Prop} {fits : Vec α → Prop}

/-! ## Forward differences -/

def Yields {β : Type} (good missing : τ → Prop) (act : StateM τ (Option β)) : Prop :=
  ∀ s, good s → Given good missing (act s)

theorem yields_some {β : Type} (b : β) : Yields good missing (pure (some b)) := fun _ h => h

theorem Yields.bind {β γ : Type} {first : StateM τ (Option β)}
    {next : Option β → StateM τ (Option γ)} (h : Yields good missing first)
    (hnone : next none = pure none) (hsome : ∀ b, Yields good missing (next (some b))) :
    Yields good missing (first >>= next) := by
  intro s hs
  have hfirst := h s hs
  change Given good missing (next (first s).1 (first s).2)
  rcases hrun : first s with ⟨answer, s'⟩
  rw [hrun] at hfirst
  cases answer with
  | none =>
      rw [hnone]
      exact hfirst
  | some b => exact hsome b s' hfirst

namespace Target

theorem yields_columns {column : Nat → StateM τ (Option (Vec α))}
    (hcolumn : ∀ j, Yields good missing (column j)) (js : List Nat) :
    Yields good missing (columns column js) := by
  induction js with
  | nil => exact yields_some _
  | cons j js ih => exact (hcolumn j).bind rfl fun _ => ih.bind rfl fun _ => yields_some _

variable [Scalar α]

theorem yields_forwardColumn (h : t.Interrupts good missing fits) {r : Vec α} (hr : fits r)
    (x : Vec α) (epsfcn : α) (j : Nat) : Yields good missing (t.forwardColumn x r epsfcn j) := by
  intro s hs
  have hmoved := h.good_setParams (x.modify j (· + forwardStep epsfcn (x.getD j 0))) hs
  unfold forwardColumn residualsAt quotients
  simp only [bind, StateT.bind]
  rcases hmove : t.setParams (x.modify j (· + forwardStep epsfcn (x.getD j 0))) s with ⟨⟨⟩, s₁⟩
  rw [hmove] at hmoved
  obtain ⟨hgiven, hfits⟩ := h.residuals hmoved
  rcases hrun : t.residuals s₁ with ⟨answer, s'⟩
  rw [hrun] at hgiven hfits
  dsimp only
  rw [hrun]
  cases answer with
  | none => exact hgiven
  | some shifted =>
      dsimp only
      split
      · exact hgiven
      · rename_i hlength
        exact h.mismatch (hfits shifted rfl) hr hlength hgiven

theorem yields_forwardJacobian (h : t.Interrupts good missing fits) {r : Vec α} (hr : fits r)
    (x : Vec α) (epsfcn : α) : Yields good missing (t.forwardJacobian x r epsfcn) := by
  intro s hs
  have hcolumns := yields_columns (yields_forwardColumn h hr x epsfcn) (List.range x.length) s hs
  rw [forwardJacobian_eq]
  change Given good missing
    ((columns (t.forwardColumn x r epsfcn) (List.range x.length) s).1.map _,
      (t.setParams x (columns (t.forwardColumn x r epsfcn) (List.range x.length) s).2).2)
  rcases hrun : columns (t.forwardColumn x r epsfcn) (List.range x.length) s with ⟨found, s'⟩
  rw [hrun] at hcolumns
  cases found with
  | none => exact h.missing_setParams x hcolumns
  | some found => exact h.good_setParams x hcolumns

end Target

/-! ## Stages -/

namespace Solver

variable [Scalar α] {norm : Norm} {s : Solver α} {a : Account τ α}

def Ends (good missing : τ → Prop) (reason : Termination) (a : Account τ α) : Prop :=
  (good a.target ∧ ∀ what, reason ≠ .user what) ∨
    (missing a.target ∧ ∃ what, reason = .user what)

theorem leads_evaluate_interrupts (h : t.Interrupts good missing fits) (ha : good a.target) :
    Leads (evaluate norm t) a (fun r a' => good a'.target ∧ fits r) (Ends good missing) := by
  obtain ⟨hgiven, hfits⟩ := h.residuals ha
  unfold evaluate
  simp only [leads_bind, leads_modify, leads_call]
  rcases hrun : t.residuals a.target with ⟨answer, s'⟩
  rw [hrun] at hgiven hfits
  cases answer with
  | none => exact .inr ⟨hgiven, _, rfl⟩
  | some r => exact ⟨hgiven, hfits r rfl⟩

theorem leads_jacobian_interrupts (h : t.Interrupts good missing fits) {it : Iterate α}
    (hr : fits it.residuals) (ha : good a.target) :
    Leads (s.jacobian t it) a (fun found a' => Given good missing (found, a'.target))
      (Ends good missing) := by
  unfold jacobian
  cases s.epsfcn with
  | none => exact h.jacobian ha
  | some epsfcn => exact Target.yields_forwardJacobian h hr it.x epsfcn a.target ha

theorem leads_linearise_interrupts (h : t.Interrupts good missing fits) {it : Iterate α}
    (hr : fits it.residuals) (ha : good a.target) :
    Leads (s.linearise norm t it) a (fun _ a' => good a'.target) (Ends good missing) := by
  unfold linearise
  refine (leads_jacobian_interrupts h hr ha).bind fun found a' hfound => ?_
  cases found with
  | none => exact .inr ⟨hfound, _, rfl⟩
  | some matrix =>
      simp only [leads_ite, leads_bind, leads_throw]
      refine ⟨fun _ => ?_, fun _ => ⟨fun _ => ?_, fun _ => ?_⟩⟩
      · exact .inl ⟨hfound, by rintro _ ⟨⟩⟩
      · exact .inl ⟨hfound, by rintro _ ⟨⟩⟩
      split
      · simp only [leads_ite, leads_bind, leads_throw, leads_pure]
        exact ⟨fun _ => .inl ⟨hfound, by rintro _ ⟨⟩⟩, fun _ => hfound⟩
      · exact .inl ⟨hfound, by rintro _ ⟨⟩⟩

theorem leads_compare_interrupts (system : DampedSystem α) (step : TrustStep α) (before after : α)
    (ha : good a.target) :
    Leads (compare norm system step before after) a (fun _ a' => good a'.target)
      (Ends good missing) := by
  unfold compare
  simp only [leads_ite, leads_bind, leads_throw, leads_pure]
  exact ⟨fun _ => .inl ⟨ha, by rintro _ ⟨⟩⟩, fun _ => ha⟩

theorem leads_checkTrial_interrupts (c : Comparison α) (cosine length radius scale : α)
    (ha : good a.target) :
    Leads (s.checkTrial c cosine length radius scale) a (fun _ a' => good a'.target)
      (Ends good missing) := by
  unfold checkTrial
  simp only [leads_ite, leads_bind, leads_throw, leads_pure, leads_get]
  refine ⟨fun _ => ?_, fun _ => ⟨fun _ => ?_, fun _ => ⟨fun _ => ?_, fun _ => ⟨fun _ => ?_,
    fun _ => ⟨fun _ => ?_, fun _ => ⟨fun _ => ?_, fun _ => ha⟩⟩⟩⟩⟩⟩
  all_goals exact .inl ⟨ha, by rintro _ ⟨⟩⟩

theorem leads_accept_interrupts (cosine : α) (p : Proposal α) (ha : good a.target) :
    Leads (s.accept norm cosine p) a (fun _ a' => good a'.target) (Ends good missing) := by
  unfold accept
  simp only [leads_ite, leads_bind, leads_throw, leads_pure]
  refine ⟨fun _ => ?_, fun _ => leads_checkTrial_interrupts _ _ _ _ _ ha⟩
  exact .inl ⟨ha, by rintro _ ⟨⟩⟩

theorem leads_reject_interrupts (h : t.Interrupts good missing fits) (here : Position α)
    (p : Proposal α) (ha : good a.target) :
    Leads (s.reject t here p) a (fun _ a' => good a'.target) (Ends good missing) := by
  unfold reject
  simp only [leads_bind, leads_call, leads_modify]
  exact leads_checkTrial_interrupts _ _ _ _ _ (h.good_setParams _ ha)

theorem leads_start_interrupts (h : t.Interrupts good missing fits) (ha : good a.target) :
    Leads (start norm t) a (fun it a' => good a'.target ∧ fits it.residuals)
      (Ends good missing) := by
  unfold start
  rw [leads_bind, leads_get]
  refine (leads_evaluate_interrupts h ha).bind ?_
  rintro r a' ⟨ha', hr⟩
  simp only [leads_ite, leads_bind, leads_throw, leads_pure]
  refine ⟨fun _ => ?_, fun _ => ⟨fun _ => ?_, fun _ => ⟨fun _ => ?_, fun _ => ⟨fun _ => ?_,
    fun _ => ⟨ha', hr⟩⟩⟩⟩⟩
  all_goals exact .inl ⟨ha', by rintro _ ⟨⟩⟩

theorem leads_propose_interrupts (h : t.Interrupts good missing fits) (here : Position α)
    (ha : good a.target) :
    Leads (propose norm t here) a (fun p a' => good a'.target ∧ fits p.point.residuals)
      (Ends good missing) := by
  unfold propose
  simp only [leads_ite, leads_bind, leads_throw, leads_pure, leads_call]
  refine ⟨fun _ => .inl ⟨ha, by rintro _ ⟨⟩⟩, fun _ => ?_⟩
  refine (leads_evaluate_interrupts h (h.good_setParams _ ha)).imp ?_
  rintro r a' ⟨ha', hr⟩
  refine ⟨fun _ => .inl ⟨ha', by rintro _ ⟨⟩⟩, fun _ => ?_⟩
  exact (leads_compare_interrupts _ _ _ _ ha').imp fun _ _ ha'' => ⟨ha'', hr⟩

/-! ## The run -/

theorem leads_pass_interrupts (h : t.Interrupts good missing fits) {here : Position α}
    (hr : fits here.iterate.residuals) (ha : good a.target) :
    Leads (s.pass norm t here) a
      (fun next a' => good a'.target ∧ fits next.iterate.residuals) (Ends good missing) := by
  unfold pass
  refine (leads_propose_interrupts h here ha).bind ?_
  rintro p a' ⟨ha', hp⟩
  rw [leads_ite]
  constructor
  · intro haccepted
    refine (leads_accept_interrupts _ p ha').bind fun trust a'' ha'' => ?_
    exact (leads_linearise_interrupts h hp ha'').bind fun lin a₃ ha₃ => ⟨ha₃, hp⟩
  · intro hrejected
    exact (leads_reject_interrupts h here p ha').bind fun _ a'' ha'' => ⟨ha'', hr⟩

theorem leads_passes_interrupts (h : t.Interrupts good missing fits) (more : Nat)
    {here : Position α} (hr : fits here.iterate.residuals) (ha : good a.target) :
    Leads (s.passes norm t more here) a (Ends good missing) (Ends good missing) := by
  induction more generalizing here a with
  | zero => exact .inl ⟨ha, by rintro _ ⟨⟩⟩
  | succ more ih =>
      unfold passes
      refine (leads_pass_interrupts h hr ha).bind ?_
      rintro next a' ⟨ha', hr'⟩
      exact ih hr' ha'

theorem leads_run_interrupts (h : t.Interrupts good missing fits) (ha : good a.target) :
    Leads (s.run norm t) a (Ends good missing) (Ends good missing) := by
  have hsetUp : Leads (s.setUp norm t) a
      (fun here a' => good a'.target ∧ fits here.iterate.residuals) (Ends good missing) := by
    unfold setUp
    refine (leads_start_interrupts h ha).bind ?_
    rintro it a' ⟨ha', hr⟩
    refine (leads_linearise_interrupts h hr ha').bind fun lin a'' ha'' => ?_
    unfold firstTrust
    simp only [leads_ite, leads_bind, leads_throw, leads_pure]
    exact ⟨fun _ => .inl ⟨ha'', by rintro _ ⟨⟩⟩, fun _ => ⟨ha'', hr⟩⟩
  unfold run
  refine hsetUp.bind ?_
  rintro here a' ⟨ha', hr⟩
  exact leads_passes_interrupts h _ hr ha'

end Solver

end Minima
