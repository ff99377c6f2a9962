import Minima.Descent
import Minima.Proofs.Lengths
import Minima.Proofs.Progress

/-!
# What a line search does

A search asks for values and gradients in the region alone, and leaves the
current point and what is stored for it as they are.  What it returns is a point
of the region with its value and gradient; if it reports success the point has
passed the test of the search.

A property `S` of step lengths that holds of the first one, and survives the ways
in which a search makes new ones, holds of the returned one.
-/

namespace Minima

variable {σ α : Type} [Scalar α]

/-- The current point is feasible, and what is stored for it belongs to it. -/
structure Progress.Rests (P : Problem σ α) (value : Vec α → Checked α α)
    (gradient : Vec α → Checked α (Vec α)) (p : Progress σ α) : Prop where
  feasible : P.region.contains p.point = true
  value_eq {v : α} : p.value = some v → value p.point = .ok v
  gradientNormSq_eq {v : α} : p.gradientNormSq = some v →
    ∃ g, gradient p.point = .ok g ∧ v = Vec.normSq g

variable {P : Problem σ α} {value : Vec α → Checked α α} {gradient : Vec α → Checked α (Vec α)}
  {Q : σ → Prop} {S : α → Prop} {p : Progress σ α}

theorem Progress.Rests.of_stays {p' : Progress σ α} (h : p.Rests P value gradient)
    (hstays : p.Stays Q p') : p'.Rests P value gradient where
  feasible := by rw [hstays.point_eq]; exact h.feasible
  value_eq := by rw [hstays.point_eq, hstays.value_eq]; exact h.value_eq
  gradientNormSq_eq := by
    rw [hstays.point_eq, hstays.gradientNormSq_eq]
    exact h.gradientNormSq_eq

/-! ## Halved steps -/

theorem Region.firstFeasible_eq_some {contains : Vec α → Bool} {x direction y : Vec α}
    {halvings : Nat} {step taken : α} (half : ∀ s, S s → S (s * 0.5)) (hstep : S step)
    (h : firstFeasible contains x direction halvings step = some (taken, y)) :
    contains y = true ∧ S taken := by
  induction halvings generalizing step with
  | zero =>
      simp only [firstFeasible] at h
      split at h
      · cases h
        exact ⟨‹_›, hstep⟩
      · contradiction
  | succ halvings ih =>
      simp only [firstFeasible] at h
      split at h
      · cases h
        exact ⟨‹_›, hstep⟩
      · exact ih (half step hstep) h

theorem Region.move_eq_ok {region : Region α} {x direction y : Vec α} {step taken : α}
    (half : ∀ s, S s → S (s * 0.5)) (hstep : S step)
    (h : region.move x direction step = .ok (taken, y)) :
    region.contains y = true ∧ S taken := by
  unfold Region.move at h
  simp only [bind, Except.bind] at h
  split at h
  · contradiction
  split at h
  · rename_i hfirst
    cases h
    exact firstFeasible_eq_some half hstep hfirst
  · contradiction

namespace LineSearch

/-! ## Trials -/

structure Trial.Measured (P : Problem σ α) (value : Vec α → Checked α α) (S : α → Prop)
    (t : Trial α) : Prop where
  feasible : P.region.contains t.x = true
  value_eq : value t.x = .ok t.value
  step : S t.step

theorem leads_trial (evaluates : P.objective.Evaluates value gradient) (allows : P.Allows Q)
    (half : ∀ s, S s → S (s * 0.5)) (hQ : Q p.oracle) (direction : Vec α) {step : α}
    (hstep : S step) :
    Leads (trial P direction step) p (fun t p' => t.Measured P value S ∧ p.Stays Q p')
      (fun _ p' => p.Stays Q p') := by
  unfold trial
  simp only [leads_bind, leads_get, leads_attempt]
  cases hmove : P.region.move p.point direction step with
  | error failure => exact .refl hQ
  | ok reached =>
      obtain ⟨hfeasible, htaken⟩ := Region.move_eq_ok half hstep hmove
      simp only [leads_pure]
      exact (leads_value evaluates allows hfeasible hQ).mono
        (fun v p' h => ⟨⟨hfeasible, h.1, htaken⟩, h.2⟩) (fun _ _ h => h)

structure Origin (p : Progress σ α) (value : Vec α → Checked α α)
    (gradient : Vec α → Checked α (Vec α)) (direction : Vec α) (v slope : α) : Prop where
  value_eq : value p.point = .ok v
  slope_eq : ∃ g, gradient p.point = .ok g ∧ g.length = direction.length ∧
    slope = -Vec.laneDot g direction

/-- What a search starts from: the value stored for the current point or, if none is stored,
the value there, and the slope there. -/
structure Begins (p : Progress σ α) (value : Vec α → Checked α α)
    (gradient : Vec α → Checked α (Vec α)) (direction : Vec α) (v slope : α) : Prop where
  value_eq : p.value = some v ∨ p.value = none ∧ value p.point = .ok v
  slope_eq : ∃ g, gradient p.point = .ok g ∧ g.length = direction.length ∧
    slope = -Vec.laneDot g direction

theorem Begins.origin {direction : Vec α} {v slope : α}
    (h : Begins p value gradient direction v slope) (hrests : p.Rests P value gradient) :
    Origin p value gradient direction v slope where
  value_eq := h.value_eq.elim hrests.value_eq And.right
  slope_eq := h.slope_eq

theorem leads_origin_begins (evaluates : P.objective.Evaluates value gradient)
    (allows : P.Allows Q) (hfeasible : P.region.contains p.point = true) (hQ : Q p.oracle)
    (direction : Vec α) :
    Leads (origin P direction) p
      (fun (v, slope) p' => Begins p value gradient direction v slope ∧ p.Stays Q p')
      (fun _ p' => p.Stays Q p') := by
  have hslope {v : α} {g : Vec α} {p' : Progress σ α}
      (hv : p.value = some v ∨ p.value = none ∧ value p.point = .ok v)
      (hg : gradient p.point = .ok g) (hstays : p.Stays Q p') :
      Leads (attempt (requireSame g.length direction.length) : Work σ α Unit) p'
        (fun _ p' => Begins p value gradient direction v (-Vec.laneDot g direction) ∧ p.Stays Q p')
        (fun _ p' => p.Stays Q p') := by
    rw [leads_attempt]
    by_cases hlength : g.length = direction.length
    · rw [requireSame_eq_ok hlength]
      exact ⟨⟨hv, g, hg, hlength, rfl⟩, hstays⟩
    · rw [requireSame, if_neg hlength]
      exact hstays
  unfold origin
  rw [leads_bind, leads_get]
  cases hvalue : p.value with
  | some v =>
      simp only [leads_bind, leads_pure]
      refine (leads_gradient evaluates allows hfeasible hQ).mono (fun g p' h => ?_)
        (fun _ _ h => h)
      exact hslope (.inl hvalue) h.1 h.2
  | none =>
      simp only [leads_bind, leads_pure]
      refine (leads_valueAndGradient evaluates allows hfeasible hQ).mono (fun vg p' h => ?_)
        (fun _ _ h => h)
      exact hslope (.inr ⟨hvalue, h.1.1⟩) h.1.2 h.2

theorem leads_origin (evaluates : P.objective.Evaluates value gradient) (allows : P.Allows Q)
    (hrests : p.Rests P value gradient) (hQ : Q p.oracle) (direction : Vec α) :
    Leads (origin P direction) p
      (fun (v, slope) p' => Origin p value gradient direction v slope ∧ p.Stays Q p')
      (fun _ p' => p.Stays Q p') :=
  (leads_origin_begins evaluates allows hrests.feasible hQ direction).imp
    fun _ _ h => ⟨h.1.origin hrests, h.2⟩

/-! ## Searches -/

/-- What a search is left with at the end: a feasible point, and what belongs to it. -/
structure Found (P : Problem σ α) (value : Vec α → Checked α α)
    (gradient : Vec α → Checked α (Vec α)) (S : α → Prop) (found : SearchResult α) : Prop where
  feasible : P.region.contains found.x = true
  value_eq : value found.x = .ok found.value
  gradient_eq : gradient found.x = .ok found.gradient
  gradientNormSq_eq : found.gradientNormSq = Vec.normSq found.gradient
  step : S found.step

def Accepts : LineSearch α → (value slope : α) → Trial α → Prop
  | backtracking b, value, slope, t => b.insufficient value slope t = false
  | bracketing b, value, slope, t =>
      b.tooShort value slope t = false ∧ b.tooLong value slope t = false

/-- The property `S` survives the ways in which the search makes a step out of others. -/
def Keeps (S : α → Prop) : LineSearch α → Prop
  | backtracking b => ∀ s, S s → S (s * b.beta)
  | bracketing b =>
      S 0 ∧ (∀ s, S s → S (s * b.extrapolation)) ∧ ∀ l r, S l → S r → S (0.5 * (l + r))

/-- What a search answers from `p` along `direction`. -/
structure Answers (search : LineSearch α) (P : Problem σ α) (value : Vec α → Checked α α)
    (gradient : Vec α → Checked α (Vec α)) (S : α → Prop) (p : Progress σ α) (direction : Vec α)
    (r : SearchResult α) : Prop where
  found : Found P value gradient S r
  accepted : ∃ v, Origin p value gradient direction v r.slope ∧
    (r.succeeded = true → search.Accepts v r.slope ⟨r.x, r.step, r.value⟩)

variable {search : LineSearch α} {direction : Vec α} {v slope : α}

theorem leads_finish (evaluates : P.objective.Evaluates value gradient) (allows : P.Allows Q)
    {p₀ : Progress σ α} (horigin : Origin p₀ value gradient direction v slope) {t : Trial α}
    (ht : t.Measured P value S) {succeeded : Bool}
    (haccepts : succeeded = true → search.Accepts v slope t) (hstays : p₀.Stays Q p) :
    Leads (finish P slope t succeeded) p
      (fun r p' => search.Answers P value gradient S p₀ direction r ∧ p₀.Stays Q p')
      (fun _ p' => p₀.Stays Q p') := by
  unfold finish
  simp only [leads_bind, leads_pure]
  refine (leads_gradient evaluates allows ht.feasible hstays.allowed).mono (fun g p' h => ?_)
    (fun _ _ h => hstays.trans h)
  exact ⟨⟨⟨ht.feasible, ht.value_eq, h.1, rfl, ht.step⟩, v, horigin, haccepts⟩, hstays.trans h.2⟩

theorem leads_backtrack (b : Backtracking α) (evaluates : P.objective.Evaluates value gradient)
    (allows : P.Allows Q) (half : ∀ s, S s → S (s * 0.5)) (keeps : (backtracking b).Keeps S)
    (direction : Vec α) (v slope : α) {before : Trial α} (budget : Nat) (hQ : Q p.oracle)
    (hbefore : S before.step) :
    Leads (b.backtrack P direction v slope budget before) p
      (fun (t, succeeded) p' => t.Measured P value S ∧
        (succeeded = true → (backtracking b).Accepts v slope t) ∧ p.Stays Q p')
      (fun _ p' => p.Stays Q p') := by
  induction budget generalizing before p with
  | zero =>
      unfold Backtracking.backtrack
      simp only [leads_bind, leads_pure]
      refine (leads_trial evaluates allows half hQ direction (keeps _ hbefore)).mono
        (fun t p' h => ?_) (fun _ _ h => h)
      exact ⟨h.1, by simp, h.2⟩
  | succ budget ih =>
      unfold Backtracking.backtrack
      simp only [leads_bind, leads_pure, leads_ite]
      refine (leads_trial evaluates allows half hQ direction (keeps _ hbefore)).mono
        (fun t p' h => ⟨fun _ => ?_, fun hfine => ?_⟩) (fun _ _ h => h)
      · exact (ih h.2.allowed h.1.step).mono
          (fun _ _ h' => ⟨h'.1, h'.2.1, h.2.trans h'.2.2⟩) (fun _ _ h' => h.2.trans h')
      · simp only [Bool.or_eq_true, not_or, Bool.not_eq_true] at hfine
        exact ⟨h.1, fun _ => hfine.1, h.2⟩

theorem leads_bracket (b : Bracketing α) (evaluates : P.objective.Evaluates value gradient)
    (allows : P.Allows Q) (half : ∀ s, S s → S (s * 0.5)) (keeps : (bracketing b).Keeps S)
    (direction : Vec α) (v slope : α) (budget : Nat) {left right : α} {t : Trial α}
    (hQ : Q p.oracle) (hleft : S left) (hright : S right) (ht : t.Measured P value S) :
    Leads (b.bracket P direction v slope budget left right t) p
      (fun (t, succeeded) p' => t.Measured P value S ∧
        (succeeded = true → (bracketing b).Accepts v slope t) ∧ p.Stays Q p')
      (fun _ p' => p.Stays Q p') := by
  have hite {c : Prop} [Decidable c] {x y : α} (hx : S x) (hy : S y) : S (if c then x else y) := by
    split
    · exact hx
    · exact hy
  have hnext {l r : α} {t : Trial α} (hl : S l) (hr : S r) (ht : S t.step) :
      S (if r < b.epsilon then t.step * b.extrapolation else 0.5 * (l + r)) :=
    hite (keeps.2.1 _ ht) (keeps.2.2 _ _ hl hr)
  induction budget generalizing left right t p with
  | zero =>
      unfold Bracketing.bracket
      simp only [leads_bind, leads_pure, leads_ite]
      refine ⟨fun hfine => ?_, fun _ => ?_⟩
      · simp only [Bool.and_eq_true, Bool.not_eq_true'] at hfine
        exact ⟨ht, fun _ => hfine, .refl hQ⟩
      have hl := hite (c := b.tooLong v slope t = true) hleft ht.step
      have hr := hite (c := b.tooLong v slope t = true) ht.step hright
      refine (leads_trial evaluates allows half hQ direction (hnext hl hr ht.step)).mono
        (fun t p' h => ?_) (fun _ _ h => h)
      exact ⟨h.1, by simp, h.2⟩
  | succ budget ih =>
      unfold Bracketing.bracket
      simp only [leads_bind, leads_pure, leads_ite]
      refine ⟨fun hfine => ?_, fun _ => ?_⟩
      · simp only [Bool.and_eq_true, Bool.not_eq_true'] at hfine
        exact ⟨ht, fun _ => hfine, .refl hQ⟩
      have hl := hite (c := b.tooLong v slope t = true) hleft ht.step
      have hr := hite (c := b.tooLong v slope t = true) ht.step hright
      refine (leads_trial evaluates allows half hQ direction (hnext hl hr ht.step)).mono
        (fun t p' h => ?_) (fun _ _ h => h)
      exact (ih h.2.allowed hl hr h.1).mono
        (fun _ _ h' => ⟨h'.1, h'.2.1, h.2.trans h'.2.2⟩) (fun _ _ h' => h.2.trans h')

theorem leads_search (search : LineSearch α) (evaluates : P.objective.Evaluates value gradient)
    (allows : P.Allows Q) (half : ∀ s, S s → S (s * 0.5)) (keeps : search.Keeps S)
    (hrests : p.Rests P value gradient) (hQ : Q p.oracle) (budget : Nat) (direction : Vec α)
    {step : α} (hstep : S step) :
    Leads (search.search P budget direction step) p
      (fun r p' => search.Answers P value gradient S p direction r ∧ p.Stays Q p')
      (fun _ p' => p.Stays Q p') := by
  cases search with
  | backtracking b =>
      change Leads (b.search P budget direction step) p _ _
      unfold Backtracking.search
      simp only [leads_bind]
      refine (leads_origin evaluates allows hrests hQ direction).mono (fun o p₁ ho => ?_)
        (fun _ _ h => h)
      refine (leads_trial evaluates allows half ho.2.allowed direction hstep).mono
        (fun t p₂ ht => ?_) (fun _ _ h => ho.2.trans h)
      rw [leads_ite]
      refine ⟨fun _ => ?_, fun hfine => ?_⟩
      · rw [leads_bind]
        refine (leads_backtrack b evaluates allows half keeps direction o.1 o.2 budget
          ht.2.allowed ht.1.step).mono (fun found p₃ h => ?_)
          (fun _ _ h => (ho.2.trans ht.2).trans h)
        exact leads_finish evaluates allows ho.1 h.1 h.2.1 ((ho.2.trans ht.2).trans h.2.2)
      · exact leads_finish evaluates allows ho.1 ht.1
          (fun _ => (Bool.not_eq_true _).mp hfine) (ho.2.trans ht.2)
  | bracketing b =>
      change Leads (b.search P budget direction step) p _ _
      unfold Bracketing.search
      simp only [leads_bind]
      refine (leads_origin evaluates allows hrests hQ direction).mono (fun o p₁ ho => ?_)
        (fun _ _ h => h)
      refine (leads_trial evaluates allows half ho.2.allowed direction hstep).mono
        (fun t p₂ ht => ?_) (fun _ _ h => ho.2.trans h)
      refine (leads_bracket b evaluates allows half keeps direction o.1 o.2 budget
        ht.2.allowed keeps.1 keeps.1 ht.1).mono (fun found p₃ h => ?_)
        (fun _ _ h => (ho.2.trans ht.2).trans h)
      exact leads_finish evaluates allows ho.1 h.1 h.2.1 ((ho.2.trans ht.2).trans h.2.2)

end LineSearch

end Minima
