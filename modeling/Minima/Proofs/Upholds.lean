import Minima.Proofs.Leads

/-!
# What a computation upholds

A property of the states that outlives a computation is described without a walk through
its states: it is upheld by a sequence if each part upholds it.  What holds where the
computation stops may depend on the failure.
-/

namespace Minima

variable {ε σ β γ : Type} {keep : σ → Prop} {stop : ε → σ → Prop}

/-- From every state with the property the computation hands on with it, or stops with `stop`. -/
def Upholds (keep : σ → Prop) (stop : ε → σ → Prop) (act : ExceptT ε (StateM σ) β) : Prop :=
  ∀ s, keep s → Leads act s (fun _ => keep) stop

theorem upholds_pure (b : β) : Upholds keep stop (pure b : ExceptT ε (StateM σ) β) :=
  fun _ h => h

theorem upholds_get : Upholds keep stop (get : ExceptT ε (StateM σ) σ) := fun _ h => h

theorem upholds_modify {f : σ → σ} (h : ∀ s, keep s → keep (f s)) :
    Upholds keep stop (modify f : ExceptT ε (StateM σ) Unit) := h

theorem upholds_attempt {α : Type} {stop : Failure α → σ → Prop} {answer : Checked α β}
    (h : ∀ e s, answer = .error e → keep s → stop e s) :
    Upholds keep stop (attempt answer : ExceptT (Failure α) (StateM σ) β) := by
  intro s hs
  rw [leads_attempt]
  cases answer with
  | ok b => exact hs
  | error e => exact h e s rfl hs

theorem Upholds.bind {first : ExceptT ε (StateM σ) β} {next : β → ExceptT ε (StateM σ) γ}
    (h : Upholds keep stop first) (hnext : ∀ b, Upholds keep stop (next b)) :
    Upholds keep stop (first >>= next) :=
  fun s hs => (h s hs).bind fun b s' hs' => hnext b s' hs'

theorem Upholds.ite {p : Prop} [Decidable p] {first second : ExceptT ε (StateM σ) β}
    (h : Upholds keep stop first) (h' : Upholds keep stop second) :
    Upholds keep stop (if p then first else second) := by
  split
  · exact h
  · exact h'

theorem upholds_mapM {f : β → ExceptT ε (StateM σ) γ} {inputs : List β}
    (h : ∀ b, Upholds keep stop (f b)) : Upholds keep stop (inputs.mapM f) :=
  fun _ hs => leads_mapM_keeps h hs

theorem upholds_forM {f : β → ExceptT ε (StateM σ) PUnit} {inputs : List β}
    (h : ∀ b, Upholds keep stop (f b)) : Upholds keep stop (inputs.forM f) := by
  induction inputs with
  | nil => exact upholds_pure _
  | cons b inputs ih => exact (h b).bind fun _ => ih

/-! ## Work in a session -/

variable {α μ : Type}

theorem Upholds.uncounted {e : Eval σ α β} {stop : Failure α → σ → Prop}
    (h : Upholds keep stop e) :
    Upholds (fun p => keep p.oracle) (fun e p => stop e p.oracle) (Problem.uncounted e) :=
  fun p hp => leads_uncounted.mpr (h p.oracle hp)

theorem Upholds.work {w : Work σ α β} {stop : Failure α → σ → Prop}
    (h : Upholds (fun p => keep p.oracle) (fun e p => stop e p.oracle) w) :
    Upholds (fun s : Session σ μ α => keep s.progress.oracle)
      (fun e s => stop e s.progress.oracle) (Run.work w) :=
  fun s hs => leads_work.mpr (h s.progress hs)

/-- Requests for costs uphold a property of the session, and changes of the memory keep it. -/
structure Problem.Bears (P : Problem σ α) (keep : Session σ μ α → Prop)
    (stop : Failure α → Session σ μ α → Prop) : Prop where
  value (x : Vec α) : Upholds keep stop (Run.work (P.value x))
  memory {s : Session σ μ α} (m : μ) : keep s → keep { s with memory := m }

theorem Problem.Bears.remember {P : Problem σ α} {keep : Session σ μ α → Prop}
    {stop : Failure α → Session σ μ α → Prop} (bears : P.Bears keep stop) (f : μ → μ) :
    Upholds keep stop (Run.remember f) :=
  fun s hs => bears.memory (f s.memory) hs

theorem leads_work_memory (w : Work σ α β) (s : Session σ μ α) :
    Leads (Run.work w) s (fun _ s' => s'.memory = s.memory) (fun _ _ => True) :=
  leads_work.mpr ((leads_true w s.progress).mono (fun _ _ _ => rfl) fun _ _ _ => trivial)

theorem upholds_work_rule (c : StoppingRule α) (w : Work σ α β) :
    Upholds (fun s : Session σ μ α => s.rule = c) (fun _ s => s.rule = c) (Run.work w) :=
  fun _ h => leads_work.mpr ((leads_true _ _).mono (fun _ _ _ => h) fun _ _ _ => h)

theorem Problem.bears_rule (P : Problem σ α) (c : StoppingRule α) :
    P.Bears (fun s : Session σ μ α => s.rule = c) (fun _ s => s.rule = c) where
  value x := upholds_work_rule c (P.value x)
  memory _ h := h

end Minima
