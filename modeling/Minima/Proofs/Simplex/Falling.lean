import Minima.Proofs.Ordered
import Minima.Proofs.Progress
import Minima.Simplex

/-!
# Values that fall from one request to the next

The values that the method holds when it asks for a cost are those that it leaves
behind if the objective gives up on this request.  A run is therefore compared with
the same run from a state that grants one request more.  The two agree, or the
first stops at the request that it lacks and the second goes on from there.
-/

namespace Minima.Simplex

variable {σ α β γ : Type} [Scalar α]

/-! ## Lists of values -/

/-- Unless nothing changed, every value from before has one after that is not above it. -/
def Undercuts (after before : List α) : Prop :=
  after = before ∨ ∀ v ∈ before, ∃ w ∈ after, w ≤ v

theorem Undercuts.refl (values : List α) : Undercuts values values := .inl rfl

theorem Undercuts.trans [OrderedScalar α] {after middle before : List α}
    (h : Undercuts after middle) (h' : Undercuts middle before) : Undercuts after before := by
  rcases h with rfl | h
  · exact h'
  rcases h' with rfl | h'
  · exact .inr h
  refine .inr fun v hv => ?_
  obtain ⟨w, hw, hwv⟩ := h' v hv
  obtain ⟨u, hu, huw⟩ := h w hw
  exact ⟨u, hu, OrderedScalar.le_trans huw hwv⟩

/-! ## Runs with one request more -/

def granted {μ : Type} (grant : σ → σ) (s : Session σ μ α) : Session σ μ α :=
  { s with progress := { s.progress with oracle := grant s.progress.oracle } }

/-- Where the computation hands on from `s`, it does so with `post`, and with one request
more it does the same.  Where it stops, it stops with one request more as well, or hands on
with `post` then.  Values fall throughout. -/
def Falls (grant : σ → σ) (act : Run σ (Simplex α) α β) (s : Session σ (Simplex α) α)
    (post : β → Session σ (Simplex α) α → Prop) : Prop :=
  Leads act s
    (fun b s' => act (granted grant s) = (.ok b, granted grant s') ∧ post b s' ∧
      Undercuts s'.memory.values s.memory.values)
    (fun e s' => Undercuts s'.memory.values s.memory.values ∧
      (act (granted grant s) = (.error e, granted grant s') ∨
        Leads act (granted grant s)
          (fun b t => post b t ∧ Undercuts t.memory.values s'.memory.values)
          (fun _ t => Undercuts t.memory.values s'.memory.values)))

variable {grant : σ → σ} {act : Run σ (Simplex α) α β} {s s' : Session σ (Simplex α) α}
  {post post' : β → Session σ (Simplex α) α → Prop} {b : β}

theorem Falls.leads (h : Falls grant act s post) :
    Leads act s (fun b s' => post b s' ∧ Undercuts s'.memory.values s.memory.values)
      (fun _ s' => Undercuts s'.memory.values s.memory.values) :=
  Leads.mono h (fun _ _ h => h.2) (fun _ _ h => h.1)

theorem Falls.undercuts (h : Falls grant act s post) :
    Undercuts (act (granted grant s)).2.memory.values (act s).2.memory.values := by
  refine Leads.final (Leads.mono_run h ?_ ?_)
    (P := fun _ => Undercuts (act (granted grant s)).2.memory.values (act s).2.memory.values)
  · intro b s' hrun h
    rw [h.1, hrun]
    exact .refl _
  · rintro e s' hrun ⟨-, hsame | hleads⟩
    · rw [hsame, hrun]
      exact .refl _
    · rw [hrun]
      exact (hleads.mono (fun _ _ h => h.2) (fun _ _ h => h)).final

theorem Falls.mono (h : Falls grant act s post) (hpost : ∀ b s', post b s' → post' b s') :
    Falls grant act s post' := by
  refine Leads.mono h ?_ ?_
  · exact fun b s' h => ⟨h.1, hpost b s' h.2.1, h.2.2⟩
  · rintro e s' ⟨hunder, hsame | hleads⟩
    · exact ⟨hunder, .inl hsame⟩
    · exact ⟨hunder, .inr (hleads.mono (fun b t h => ⟨hpost b t h.1, h.2⟩) fun _ _ h => h)⟩

theorem falls_of_ok (hrun : act s = (.ok b, s'))
    (hgranted : act (granted grant s) = (.ok b, granted grant s')) (hpost : post b s')
    (hunder : Undercuts s'.memory.values s.memory.values) : Falls grant act s post :=
  leads_of_ok hrun ⟨hgranted, hpost, hunder⟩

theorem falls_of_same (hrun : act s = (.ok b, s'))
    (hgranted : act (granted grant s) = (.ok b, granted grant s')) (hpost : post b s')
    (hvalues : s'.memory.values = s.memory.values) : Falls grant act s post :=
  falls_of_ok hrun hgranted hpost (.inl hvalues)

theorem falls_pure (h : post b s) : Falls grant (pure b) s post :=
  falls_of_same rfl rfl h rfl

theorem falls_remember {f : Simplex α → Simplex α}
    (hunder : Undercuts (f s.memory).values s.memory.values) :
    Falls grant (Run.remember f) s (fun _ s' => s' = { s with memory := f s.memory }) :=
  falls_of_ok rfl rfl rfl hunder

theorem falls_check {c : StoppingRule α → Bool × StoppingRule α} :
    Falls grant (Run.check c) s
      (fun fired s' => fired = (c s.rule).1 ∧ s' = { s with rule := (c s.rule).2 }) :=
  falls_of_same rfl rfl ⟨rfl, rfl⟩ rfl

theorem falls_mark {o : Outcome} :
    Falls grant (Run.mark o) s (fun _ s' => s' = { s with rule := (s.rule.mark o).2 }) :=
  falls_of_same rfl rfl rfl rfl

theorem falls_settle (i : Nat) :
    Falls grant (settle i) s (fun _ s' => s' = { s with progress := { s.progress with
      point := s.memory.vertices.getD i []
      value := some (s.memory.values.getD i 0) } }) :=
  falls_of_same rfl rfl rfl rfl

theorem falls_outcome :
    Falls grant Run.outcome s (fun o s' => o = s.rule.outcome ∧ s' = s) :=
  falls_of_same rfl rfl ⟨rfl, rfl⟩ rfl

theorem falls_get {next : Session σ (Simplex α) α → Run σ (Simplex α) α β}
    (hsame : next (granted grant s) = next s) (h : Falls grant (next s) s post) :
    Falls grant (get >>= next) s post := by
  have hgranted : (get >>= next) (granted grant s) = next s (granted grant s) :=
    congrFun hsame (granted grant s)
  unfold Falls Leads at h ⊢
  rw [hgranted]
  exact h

theorem falls_ite {p : Prop} [Decidable p] {first second : Run σ (Simplex α) α β}
    (hfirst : p → Falls grant first s post) (hsecond : ¬ p → Falls grant second s post) :
    Falls grant (if p then first else second) s post := by
  split
  · rename_i hp
    exact hfirst hp
  · rename_i hp
    exact hsecond hp

theorem falls_value {P : Problem σ α} {value : Vec α → α} {log : σ → List (Vec α)}
    (costs : P.objective.Costs value log) (grants : P.objective.Grants grant log)
    (x : Vec α) (s : Session σ (Simplex α) α) :
    Falls grant (Run.work (P.value x)) s (fun v s' => v = value x ∧
      log s'.progress.oracle = x :: log s.progress.oracle ∧ s'.rule = s.rule ∧
      s'.memory = s.memory) := by
  have hsame (h : P.objective.value x (grant s.progress.oracle) =
      ((P.objective.value x s.progress.oracle).1,
        grant (P.objective.value x s.progress.oracle).2)) :
      Run.work (P.value x) (granted grant s) =
        ((Run.work (P.value x) s).1, granted grant (Run.work (P.value x) s).2) := by
    rw [work_value_apply, work_value_apply]
    simp only [granted, h]
  refine (leads_work_value costs x s).mono_run ?_ ?_
  · intro v s' hrun h
    refine ⟨?_, h, .inl (congrArg _ h.2.2.2)⟩
    rcases grants.value x s.progress.oracle with hgranted | ⟨e, herror⟩
    · rw [hsame hgranted, hrun]
    · rw [work_value_apply, herror] at hrun
      cases hrun
  · intro e s' hrun h
    refine ⟨.inl (congrArg _ h), ?_⟩
    rcases grants.value x s.progress.oracle with hgranted | -
    · rw [hsame hgranted, hrun]
      exact .inl rfl
    · refine .inr ((leads_work_value costs x (granted grant s)).mono (fun v t ht => ?_)
        fun _ t ht => ?_)
      · rw [h, ht.2.2.2]
        exact ⟨⟨ht.1, by rw [ht.2.1, granted, grants.log_eq], ht.2.2.1, ht.2.2.2⟩, .refl _⟩
      · rw [h, ht]
        exact .refl _

theorem falls_bind [OrderedScalar α] {first : Run σ (Simplex α) α β}
    {next : β → Run σ (Simplex α) α γ} {post : γ → Session σ (Simplex α) α → Prop}
    {middle : β → Session σ (Simplex α) α → Prop} (hfirst : Falls grant first s middle)
    (hnext : ∀ b s', middle b s' → Falls grant (next b) s' post) :
    Falls grant (first >>= next) s post := by
  unfold Falls
  rw [leads_bind]
  refine Leads.mono_run hfirst ?_ ?_
  · rintro b s' - ⟨hgranted, hmiddle, hunder⟩
    have hbind : (first >>= next) (granted grant s) = next b (granted grant s') := by
      rw [bind_apply, hgranted]
    rw [hbind]
    refine Leads.mono (hnext b s' hmiddle) ?_ ?_
    · exact fun c t h => ⟨h.1, h.2.1, h.2.2.trans hunder⟩
    · refine fun e t h => ⟨h.1.trans hunder, h.2.imp id fun hleads => ?_⟩
      exact (leads_congr hbind).mpr hleads
  · rintro e s' - ⟨hunder, hsame | hleads⟩
    · refine ⟨hunder, .inl ?_⟩
      rw [bind_apply, hsame]
    · refine ⟨hunder, .inr (leads_bind.mpr (hleads.mono (fun b t h => ?_) fun _ _ h => h))⟩
      refine (hnext b t h.1).leads.mono (fun c t' h' => ⟨h'.1, h'.2.trans h.2⟩) ?_
      exact fun _ t' h' => h'.trans h.2

end Minima.Simplex
