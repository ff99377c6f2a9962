import Mathlib.Data.List.Forall2
import Minima.Session

/-!
# What a computation leads to

Stages, works and runs are steps of a machine that may fail.  Such a computation
is described by what holds when it hands on and what holds when it stops.  The
description of a sequence is put together from those of its parts.
-/

namespace Minima

variable {ε σ β γ : Type}

/-- From the state `s` the computation hands on with `post` or stops with `stop`. -/
def Leads (act : ExceptT ε (StateM σ) β) (s : σ) (post : β → σ → Prop) (stop : ε → σ → Prop) :
    Prop :=
  match act s with
  | (.ok b, s') => post b s'
  | (.error e, s') => stop e s'

variable {act : ExceptT ε (StateM σ) β} {s s' : σ} {post post' : β → σ → Prop}
  {stop stop' : ε → σ → Prop} {b : β}

/-! ## Consequences -/

theorem Leads.mono (h : Leads act s post stop) (hpost : ∀ b s', post b s' → post' b s')
    (hstop : ∀ e s', stop e s' → stop' e s') : Leads act s post' stop' := by
  unfold Leads at h ⊢
  rcases hrun : act s with ⟨result, s'⟩
  rw [hrun] at h
  cases result with
  | ok b => exact hpost b s' h
  | error e => exact hstop e s' h

theorem Leads.imp (h : Leads act s post stop) (hpost : ∀ b s', post b s' → post' b s') :
    Leads act s post' stop :=
  h.mono hpost fun _ _ h => h

theorem Leads.imp_stop (h : Leads act s post stop) (hstop : ∀ e s', stop e s' → stop' e s') :
    Leads act s post stop' :=
  h.mono (fun _ _ h => h) hstop

theorem Leads.mono_run (h : Leads act s post stop)
    (hpost : ∀ b s', act s = (.ok b, s') → post b s' → post' b s')
    (hstop : ∀ e s', act s = (.error e, s') → stop e s' → stop' e s') :
    Leads act s post' stop' := by
  unfold Leads at h ⊢
  rcases hrun : act s with ⟨result, s'⟩
  rw [hrun] at h
  cases result with
  | ok b => exact hpost b s' hrun h
  | error e => exact hstop e s' hrun h

theorem Leads.imp_run (h : Leads act s post stop)
    (hpost : ∀ b s', act s = (.ok b, s') → post b s' → post' b s') : Leads act s post' stop :=
  h.mono_run hpost fun _ _ _ h => h

theorem Leads.and (h : Leads act s post stop) (h' : Leads act s post' stop') :
    Leads act s (fun b s' => post b s' ∧ post' b s') (fun e s' => stop e s' ∧ stop' e s') := by
  unfold Leads at h h' ⊢
  rcases hrun : act s with ⟨result, s'⟩
  rw [hrun] at h h'
  cases result with
  | ok b => exact ⟨h, h'⟩
  | error e => exact ⟨h, h'⟩

theorem Leads.of_ok (h : Leads act s post stop) (hrun : act s = (.ok b, s')) : post b s' := by
  rw [Leads, hrun] at h
  exact h

theorem Leads.of_error {e : ε} (h : Leads act s post stop) (hrun : act s = (.error e, s')) :
    stop e s' := by
  rw [Leads, hrun] at h
  exact h

theorem Leads.exists_ok (h : Leads act s post fun _ _ => False) :
    ∃ b s', act s = (.ok b, s') ∧ post b s' := by
  unfold Leads at h
  rcases hrun : act s with ⟨result, s'⟩
  rw [hrun] at h
  cases result with
  | ok b => exact ⟨b, s', rfl, h⟩
  | error e => exact h.elim

theorem leads_of_ok (hrun : act s = (.ok b, s')) (h : post b s') : Leads act s post stop := by
  rw [Leads, hrun]
  exact h

theorem leads_of_error {e : ε} (hrun : act s = (.error e, s')) (h : stop e s') :
    Leads act s post stop := by
  rw [Leads, hrun]
  exact h

theorem leads_congr {act' : ExceptT ε (StateM σ) β} (h : act s = act' s') :
    Leads act s post stop ↔ Leads act' s' post stop := by
  unfold Leads
  rw [h]

theorem leads_true (act : ExceptT ε (StateM σ) β) (s : σ) :
    Leads act s (fun _ _ => True) (fun _ _ => True) := by
  unfold Leads
  split <;> trivial

theorem leads_of_answer {answer : Except ε β} {P : σ → Prop} (hanswer : (act s).1 = answer)
    (hfinal : P (act s).2) :
    Leads act s (fun b s' => answer = .ok b ∧ P s') (fun _ s' => P s') := by
  unfold Leads
  rcases hrun : act s with ⟨result, s'⟩
  rw [hrun] at hanswer hfinal
  cases result with
  | ok b => exact ⟨hanswer.symm, hfinal⟩
  | error e => exact hfinal

theorem Leads.final {P : σ → Prop} (h : Leads act s (fun _ => P) (fun _ => P)) : P (act s).2 := by
  unfold Leads at h
  rcases hrun : act s with ⟨result, s'⟩
  rw [hrun] at h
  cases result with
  | ok b => exact h
  | error e => exact h

/-! ## Sequences and choices -/

theorem bind_apply (first : ExceptT ε (StateM σ) β) (next : β → ExceptT ε (StateM σ) γ) (s : σ) :
    (first >>= next) s = match first s with
      | (.ok b, s') => next b s'
      | (.error e, s') => (.error e, s') := by
  change StateT.bind first (ExceptT.bindCont next) s = _
  rw [StateT.bind]
  rcases first s with ⟨result, s'⟩
  cases result with
  | ok b => rfl
  | error e => rfl

theorem bind_eq_ok {first : ExceptT ε (StateM σ) β} {next : β → ExceptT ε (StateM σ) γ} {c : γ}
    {s s'' : σ} (h : (first >>= next) s = (.ok c, s'')) :
    ∃ b s', first s = (.ok b, s') ∧ next b s' = (.ok c, s'') := by
  rw [bind_apply] at h
  rcases hfirst : first s with ⟨result, s'⟩
  rw [hfirst] at h
  cases result with
  | ok b => exact ⟨b, s', rfl, h⟩
  | error e => cases h

@[simp]
theorem leads_bind {first : ExceptT ε (StateM σ) β} {next : β → ExceptT ε (StateM σ) γ}
    {post : γ → σ → Prop} :
    Leads (first >>= next) s post stop ↔
      Leads first s (fun b s' => Leads (next b) s' post stop) stop := by
  unfold Leads
  rw [bind_apply]
  rcases first s with ⟨result, s'⟩
  cases result with
  | ok b => rfl
  | error e => rfl

/-- A sequence whose second part stops as the first does. -/
theorem Leads.bind {first : ExceptT ε (StateM σ) β} {next : β → ExceptT ε (StateM σ) γ}
    {mid : β → σ → Prop} {post : γ → σ → Prop} (h : Leads first s mid stop)
    (hnext : ∀ b s', mid b s' → Leads (next b) s' post stop) :
    Leads (first >>= next) s post stop :=
  leads_bind.mpr (h.mono hnext fun _ _ h => h)

@[simp]
theorem leads_ite {p : Prop} [Decidable p] {first second : ExceptT ε (StateM σ) β} :
    Leads (if p then first else second) s post stop ↔
      (p → Leads first s post stop) ∧ (¬ p → Leads second s post stop) := by
  by_cases h : p
  · simp [h]
  · simp [h]

theorem leads_mapM_keeps {f : β → ExceptT ε (StateM σ) γ} {inputs : List β} {K : σ → Prop}
    (hstep : ∀ b s, K s → Leads (f b) s (fun _ => K) stop) (h : K s) :
    Leads (inputs.mapM f) s (fun _ => K) stop := by
  induction inputs generalizing s with
  | nil =>
      rw [List.mapM_nil]
      exact h
  | cons b inputs ih =>
      rw [List.mapM_cons, leads_bind]
      refine (hstep b s h).imp ?_
      intro c s₁ h₁
      rw [leads_bind]
      exact (ih h₁).imp fun _ _ h => h

theorem leads_mapM {f : β → ExceptT ε (StateM σ) γ} {inputs : List β} {R : β → γ → Prop}
    {K : σ → Prop}
    (hstep : ∀ b ∈ inputs, ∀ s, K s → Leads (f b) s (fun c s' => R b c ∧ K s') stop) (h : K s) :
    Leads (inputs.mapM f) s (fun made s' => List.Forall₂ R inputs made ∧ K s') stop := by
  induction inputs generalizing s with
  | nil =>
      rw [List.mapM_nil]
      exact ⟨.nil, h⟩
  | cons b inputs ih =>
      rw [List.forall_mem_cons] at hstep
      rw [List.mapM_cons]
      refine (hstep.1 s h).bind ?_
      rintro c s₁ ⟨hc, h₁⟩
      refine (ih hstep.2 h₁).bind ?_
      rintro made s₂ ⟨hmade, h₂⟩
      exact ⟨.cons hc hmade, h₂⟩

/-! ## Single steps -/

@[simp]
theorem leads_pure : Leads (pure b) s post stop ↔ post b s := Iff.rfl

@[simp]
theorem leads_throw {e : ε} :
    Leads (throw e : ExceptT ε (StateM σ) β) s post stop ↔ stop e s := Iff.rfl

@[simp]
theorem leads_get {post : σ → σ → Prop} :
    Leads (get : ExceptT ε (StateM σ) σ) s post stop ↔ post s s := Iff.rfl

@[simp]
theorem leads_modify {f : σ → σ} {post : Unit → σ → Prop} :
    Leads (modify f : ExceptT ε (StateM σ) Unit) s post stop ↔ post () (f s) := Iff.rfl

/-! ## Work in a session -/

variable {α μ : Type}

@[simp]
theorem leads_attempt {answer : Checked α β} {stop : Failure α → σ → Prop} :
    Leads (attempt answer : ExceptT (Failure α) (StateM σ) β) s post stop ↔
      match answer with
      | .ok b => post b s
      | .error e => stop e s := by
  cases answer with
  | ok b => rfl
  | error e => rfl

@[simp]
theorem leads_uncounted {e : Eval σ α β} {p : Progress σ α} {post : β → Progress σ α → Prop}
    {stop : Failure α → Progress σ α → Prop} :
    Leads (Problem.uncounted e) p post stop ↔
      Leads e p.oracle (fun b oracle => post b { p with oracle })
        (fun failure oracle => stop failure { p with oracle }) := by
  unfold Leads Problem.uncounted
  rcases e p.oracle with ⟨answer, oracle⟩
  cases answer with
  | ok b => rfl
  | error failure => rfl

@[simp]
theorem leads_work {w : Work σ α β} {s : Session σ μ α} {post : β → Session σ μ α → Prop}
    {stop : Failure α → Session σ μ α → Prop} :
    Leads (Run.work w) s post stop ↔
      Leads w s.progress (fun b progress => post b { s with progress })
        (fun failure progress => stop failure { s with progress }) := by
  unfold Leads Run.work
  rcases w s.progress with ⟨answer, progress⟩
  cases answer with
  | ok b => rfl
  | error failure => rfl

@[simp]
theorem leads_check {c : StoppingRule α → Bool × StoppingRule α} {s : Session σ μ α}
    {post : Bool → Session σ μ α → Prop} {stop : Failure α → Session σ μ α → Prop} :
    Leads (Run.check c) s post stop ↔ post (c s.rule).1 { s with rule := (c s.rule).2 } := Iff.rfl

@[simp]
theorem leads_remember {f : μ → μ} {s : Session σ μ α} {post : Unit → Session σ μ α → Prop}
    {stop : Failure α → Session σ μ α → Prop} :
    Leads (Run.remember f) s post stop ↔ post () { s with memory := f s.memory } := Iff.rfl

@[simp]
theorem leads_mark {o : Outcome} {s : Session σ μ α} {post : Unit → Session σ μ α → Prop}
    {stop : Failure α → Session σ μ α → Prop} :
    Leads (Run.mark o) s post stop ↔ post () { s with rule := (s.rule.mark o).2 } := Iff.rfl

@[simp]
theorem leads_outcome {s : Session σ μ α} {post : Outcome → Session σ μ α → Prop}
    {stop : Failure α → Session σ μ α → Prop} :
    Leads Run.outcome s post stop ↔ post s.rule.outcome s := Iff.rfl

@[simp]
theorem leads_reset {s : Session σ μ α} {post : Unit → Session σ μ α → Prop}
    {stop : Failure α → Session σ μ α → Prop} :
    Leads Run.reset s post stop ↔
      post () { s with progress := s.progress.reset, rule := s.rule.reset } := Iff.rfl

@[simp]
theorem leads_settle {x : Vec α} {v : α} {s : Session σ μ α}
    {post : Unit → Session σ μ α → Prop} {stop : Failure α → Session σ μ α → Prop} :
    Leads (Run.work (Problem.settle x v)) s post stop ↔
      post () { s with progress := { s.progress with point := x, value := some v } } := Iff.rfl

end Minima
