import Minima.Proofs.Leads

/-!
# Computations on two machines

An instrumented machine does what the plain one does and keeps a record besides.  Two computations
are compared as one is described by `Leads`: they give the same answer, and what they leave is
related.
-/

namespace Minima

variable {ε σ σ' β γ : Type}

/-- From `s` and `s'` both computations hand on the same with `post`, or stop for the same reason
with `stop`. -/
def Mirrors (act : ExceptT ε (StateM σ) β) (act' : ExceptT ε (StateM σ') β) (s : σ) (s' : σ')
    (post : β → σ → σ' → Prop) (stop : ε → σ → σ' → Prop) : Prop :=
  match act s, act' s' with
  | (.ok b, t), (.ok c, t') => b = c ∧ post b t t'
  | (.error e, t), (.error f, t') => e = f ∧ stop e t t'
  | _, _ => False

variable {act : ExceptT ε (StateM σ) β} {act' : ExceptT ε (StateM σ') β} {s : σ} {s' : σ'}
  {post : β → σ → σ' → Prop} {stop : ε → σ → σ' → Prop} {b : β}

theorem Mirrors.of_ok (h : Mirrors act act' s s' post stop) {t : σ} (hrun : act s = (.ok b, t)) :
    ∃ t', act' s' = (.ok b, t') ∧ post b t t' := by
  unfold Mirrors at h
  rw [hrun] at h
  rcases hrun' : act' s' with ⟨_ | c, t'⟩
  · rw [hrun'] at h
    exact h.elim
  · rw [hrun'] at h
    obtain ⟨rfl, hpost⟩ := h
    exact ⟨t', rfl, hpost⟩

/-! ## Sequences and choices -/

theorem Mirrors.bind {first : ExceptT ε (StateM σ) β} {first' : ExceptT ε (StateM σ') β}
    {next : β → ExceptT ε (StateM σ) γ} {next' : β → ExceptT ε (StateM σ') γ}
    {M : β → σ → σ' → Prop} {post : γ → σ → σ' → Prop}
    (h : Mirrors first first' s s' M stop)
    (hnext : ∀ b t t', M b t t' → Mirrors (next b) (next' b) t t' post stop) :
    Mirrors (first >>= next) (first' >>= next') s s' post stop := by
  unfold Mirrors at h ⊢
  rw [bind_apply, bind_apply]
  rcases hfirst : first s with ⟨_ | b, t⟩ <;> rcases hfirst' : first' s' with ⟨_ | c, t'⟩ <;>
    rw [hfirst, hfirst'] at h
  · exact h
  · exact h.elim
  · exact h.elim
  · obtain ⟨rfl, hmid⟩ := h
    exact hnext b t t' hmid

@[simp]
theorem mirrors_ite {p : Prop} [Decidable p] {first second : ExceptT ε (StateM σ) β}
    {first' second' : ExceptT ε (StateM σ') β} :
    Mirrors (if p then first else second) (if p then first' else second') s s' post stop ↔
      (p → Mirrors first first' s s' post stop) ∧
        (¬ p → Mirrors second second' s s' post stop) := by
  by_cases h : p
  · simp [h]
  · simp [h]

theorem mirrors_mapM {f : β → ExceptT ε (StateM σ) γ} {f' : β → ExceptT ε (StateM σ') γ}
    {inputs : List β} {R : σ → σ' → Prop}
    (hstep : ∀ b t t', R t t' → Mirrors (f b) (f' b) t t' (fun _ => R) stop) (h : R s s') :
    Mirrors (inputs.mapM f) (inputs.mapM f') s s'
      (fun made t t' => made.length = inputs.length ∧ R t t') stop := by
  induction inputs generalizing s s' with
  | nil => exact ⟨rfl, rfl, h⟩
  | cons b inputs ih =>
      rw [List.mapM_cons, List.mapM_cons]
      refine (hstep b s s' h).bind fun c t t' ht => ?_
      refine (ih ht).bind fun made u u' hu => ?_
      exact ⟨rfl, by rw [List.length_cons, hu.1, List.length_cons], hu.2⟩

theorem throw_bind (e : ε) (next : β → ExceptT ε (StateM σ) γ) :
    ((throw e : ExceptT ε (StateM σ) β) >>= next) = throw e := rfl

theorem mirrors_get_bind {next : σ → ExceptT ε (StateM σ) γ} {next' : σ' → ExceptT ε (StateM σ') γ}
    {post : γ → σ → σ' → Prop} :
    Mirrors (get >>= next) (get >>= next') s s' post stop ↔
      Mirrors (next s) (next' s') s s' post stop := Iff.rfl

@[simp]
theorem mirrors_modify {f : σ → σ} {f' : σ' → σ'} {post : Unit → σ → σ' → Prop} :
    Mirrors (modify f : ExceptT ε (StateM σ) Unit) (modify f' : ExceptT ε (StateM σ') Unit) s s'
      post stop ↔ post () (f s) (f' s') :=
  ⟨fun h => h.2, fun h => ⟨rfl, h⟩⟩

end Minima
