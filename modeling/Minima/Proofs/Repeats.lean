import Minima.Proofs.Leads

/-!
# Runs that repeat each other

Two sessions may differ in what earlier runs have left behind.  A computation repeats itself if
it gives the same answer from both and leaves sessions that differ no more than a relation
allows, which may depend on whether it stops.
-/

namespace Minima

variable {σ μ α β γ : Type}

/-- Sessions with the same progress and rule, and related memories. -/
structure Session.Alike (R : μ → μ → Prop) (s t : Session σ μ α) : Prop where
  progress_eq : s.progress = t.progress
  rule_eq : s.rule = t.rule
  memory : R s.memory t.memory

/-- Sessions at the same point and with the same settings, whatever the stored values, the
counts, the outcome and the streak are. -/
structure Session.Renews (R : μ → μ → Prop) (s t : Session σ μ α) : Prop where
  point_eq : s.progress.point = t.progress.point
  oracle_eq : s.progress.oracle = t.progress.oracle
  maxIterations_eq : s.rule.maxIterations = t.rule.maxIterations
  stationaryBudget_eq : s.rule.stationaryBudget = t.rule.stationaryBudget
  rootEpsilon_eq : s.rule.rootEpsilon = t.rule.rootEpsilon
  functionEpsilon_eq : s.rule.functionEpsilon = t.rule.functionEpsilon
  gradientEpsilon_eq : s.rule.gradientEpsilon = t.rule.gradientEpsilon
  memory : R s.memory t.memory

def EndsAlike (weak post : Session σ μ α → Session σ μ α → Prop) :
    Checked α β × Session σ μ α → Checked α β × Session σ μ α → Prop
  | (.ok b, s), (.ok c, t) => b = c ∧ post s t
  | (.error e, s), (.error f, t) => e = f ∧ weak s t
  | _, _ => False

/-- From related sessions the computation gives the same answer, and what it leaves is related. -/
def Repeats (weak pre post : Session σ μ α → Session σ μ α → Prop) (act : Run σ μ α β) : Prop :=
  ∀ s t, pre s t → EndsAlike weak post (act s) (act t)

section Sequences

variable {weak pre mid post : Session σ μ α → Session σ μ α → Prop} {first second : Run σ μ α β}

theorem Repeats.bind {next : β → Run σ μ α γ} (h : Repeats weak pre mid first)
    (hnext : ∀ b, Repeats weak mid post (next b)) : Repeats weak pre post (first >>= next) := by
  intro s t hst
  have hfirst := h s t hst
  rw [bind_apply, bind_apply]
  rcases hs : first s with ⟨answer, s'⟩
  rcases ht : first t with ⟨answer', t'⟩
  rw [hs, ht] at hfirst
  cases answer with
  | ok b =>
      cases answer' with
      | ok b' =>
          obtain ⟨rfl, hmid⟩ := hfirst
          exact hnext b s' t' hmid
      | error e => exact hfirst.elim
  | error e =>
      cases answer' with
      | ok b' => exact hfirst.elim
      | error e' => exact hfirst

theorem Repeats.ite {p : Prop} [Decidable p] (h : Repeats weak pre post first)
    (h' : Repeats weak pre post second) : Repeats weak pre post (if p then first else second) := by
  split
  · exact h
  · exact h'

theorem repeats_get_bind {next : Session σ μ α → Run σ μ α β}
    (h : ∀ s t, pre s t → next s = next t) (hnext : ∀ s, Repeats weak pre post (next s)) :
    Repeats weak pre post (get >>= next) := by
  intro s t hst
  have hsame := hnext s s t hst
  change EndsAlike weak post (next s s) (next t t)
  rwa [← h s t hst]

theorem repeats_pure (b : β) : Repeats weak pre pre (pure b : Run σ μ α β) :=
  fun _ _ h => ⟨rfl, h⟩

theorem repeats_throw {e : Failure α} (h : ∀ s t, pre s t → weak s t) :
    Repeats weak pre post (throw e : Run σ μ α β) :=
  fun s t hst => ⟨rfl, h s t hst⟩

theorem repeats_attempt (h : ∀ s t, pre s t → weak s t) (answer : Checked α β) :
    Repeats weak pre pre (attempt answer : Run σ μ α β) := by
  cases answer with
  | ok b => exact repeats_pure b
  | error e => exact repeats_throw h

theorem repeats_mapM {f : γ → Run σ μ α β} (h : ∀ c, Repeats weak pre pre (f c))
    (inputs : List γ) : Repeats weak pre pre (inputs.mapM f) := by
  induction inputs with
  | nil => exact repeats_pure []
  | cons c inputs ih =>
      rw [List.mapM_cons]
      exact (h c).bind fun _ => ih.bind fun _ => repeats_pure _

end Sequences

/-! ## Single steps -/

variable {weak : Session σ μ α → Session σ μ α → Prop} {R R' W : μ → μ → Prop}

theorem Session.Renews.reset_eq {s t : Session σ μ α} (h : Session.Renews R s t) :
    s.progress.reset = t.progress.reset ∧ s.rule.reset = t.rule.reset := by
  obtain ⟨⟨oracle, point, value, norm, values, gradients⟩, ⟨max, budget, root, function, gradient,
    outcome, streak, hlow, hhigh⟩, m⟩ := s
  obtain ⟨⟨oracle', point', value', norm', values', gradients'⟩, ⟨max', budget', root', function',
    gradient', outcome', streak', hlow', hhigh'⟩, m'⟩ := t
  obtain ⟨rfl, rfl, rfl, rfl, rfl, rfl, rfl, -⟩ := h
  exact ⟨rfl, rfl⟩

theorem repeats_reset :
    Repeats weak (Session.Renews R) (Session.Alike R) (Run.reset : Run σ μ α Unit) :=
  fun _ _ h => ⟨rfl, h.reset_eq.1, h.reset_eq.2, h.memory⟩

theorem repeats_work (h : ∀ m n, R m n → W m n) (w : Work σ α β) :
    Repeats (Session.Alike W) (Session.Alike R) (Session.Alike R)
      (Run.work w : Run σ μ α β) := by
  intro s t hst
  unfold Run.work
  rw [hst.progress_eq, hst.rule_eq]
  rcases w t.progress with ⟨answer, p⟩
  cases answer with
  | ok b => exact ⟨rfl, rfl, rfl, hst.memory⟩
  | error e => exact ⟨rfl, rfl, rfl, h _ _ hst.memory⟩

theorem repeats_check (c : StoppingRule α → Bool × StoppingRule α) :
    Repeats weak (Session.Alike R) (Session.Alike R) (Run.check c : Run σ μ α Bool) :=
  fun _ _ hst => ⟨congrArg (fun r => (c r).1) hst.rule_eq, hst.progress_eq,
    congrArg (fun r => (c r).2) hst.rule_eq, hst.memory⟩

theorem repeats_outcome :
    Repeats weak (Session.Alike R) (Session.Alike R) (Run.outcome : Run σ μ α Outcome) :=
  fun _ _ hst => ⟨congrArg StoppingRule.outcome hst.rule_eq, hst⟩

theorem repeats_remember {f : μ → μ} (h : ∀ m n, R m n → R' (f m) (f n)) :
    Repeats weak (Session.Alike R) (Session.Alike R') (Run.remember f : Run σ μ α Unit) :=
  fun _ _ hst => ⟨rfl, hst.progress_eq, hst.rule_eq, h _ _ hst.memory⟩

theorem repeats_eq (h : ∀ m, R m m) (act : Run σ μ α β) :
    Repeats (Session.Alike R) (Session.Alike Eq) (Session.Alike R) act := by
  rintro ⟨p, c, m⟩ ⟨p', c', m'⟩ ⟨rfl, rfl, rfl⟩
  rcases act ⟨p, c, m⟩ with ⟨answer, s'⟩
  cases answer with
  | ok b => exact ⟨rfl, rfl, rfl, h _⟩
  | error e => exact ⟨rfl, rfl, rfl, h _⟩

theorem endsAlike_within {ν : Type} {S : ν → ν → Prop} {restore : μ → ν} {r : Run σ μ α β}
    (h : Repeats (Session.Alike R) (Session.Renews R) (Session.Alike R) r)
    (hrestore : ∀ m n, R m n → S (restore m) (restore n)) {m n : μ} (hmn : R m n)
    {s t : Session σ ν α} (hst : Session.Renews S s t) :
    EndsAlike (Session.Alike S) (Session.Alike S) (Run.within m restore r s)
      (Run.within n restore r t) := by
  have hends := h ⟨s.progress, s.rule, m⟩ ⟨t.progress, t.rule, n⟩ { hst with memory := hmn }
  unfold Run.within
  rcases hs : r ⟨s.progress, s.rule, m⟩ with ⟨answer, s'⟩
  rcases ht : r ⟨t.progress, t.rule, n⟩ with ⟨answer', t'⟩
  rw [hs, ht] at hends
  cases answer with
  | ok b =>
      cases answer' with
      | ok c => exact ⟨hends.1, hends.2.progress_eq, hends.2.rule_eq, hrestore _ _ hends.2.memory⟩
      | error e => exact hends.elim
  | error e =>
      cases answer' with
      | ok c => exact hends.elim
      | error f =>
          obtain ⟨hcause, halike⟩ := hends
          exact ⟨hcause, halike.progress_eq, halike.rule_eq, hrestore _ _ halike.memory⟩

theorem EndsAlike.answer_eq {post : Session σ μ α → Session σ μ α → Prop}
    {r r' : Checked α β × Session σ μ α} (h : EndsAlike post post r r') :
    r.1 = r'.1 ∧ post r.2 r'.2 := by
  obtain ⟨answer, s⟩ := r
  obtain ⟨answer', t⟩ := r'
  cases answer with
  | ok b =>
      cases answer' with
      | ok c => exact ⟨congrArg Except.ok h.1, h.2⟩
      | error e => exact h.elim
  | error e =>
      cases answer' with
      | ok c => exact h.elim
      | error f => exact ⟨congrArg Except.error h.1, h.2⟩

end Minima
