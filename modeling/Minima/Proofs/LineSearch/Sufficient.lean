import Minima.Proofs.LineSearch.Free

/-!
# The first sufficient step

Without a constraint no step is shortened, so the trials of a backtracking search
have the first step times the powers of `beta`.  In exact arithmetic the test on the
trial before is the test that this trial has failed already: it never rejects a step.
What is left is a search for the first power that passes.
-/

namespace Minima

open LineSearch

namespace Backtracking

variable {σ : Type} {f : Objective σ ℝ} {value : Vec ℝ → Checked ℝ ℝ}
  {gradient : Vec ℝ → Checked ℝ (Vec ℝ)} {b : Backtracking ℝ} {x direction : Vec ℝ}
  {v slope step : ℝ} {k m n N : ℕ} {p : Progress σ ℝ}

/-! ## Powers of the factor -/

noncomputable def reached (b : Backtracking ℝ) (x direction : Vec ℝ) (step : ℝ) (k : ℕ) : Vec ℝ :=
  Region.along x direction (step * b.beta ^ k)

/-- The step `step * beta ^ k` decreases the value `v` by enough. -/
def Sufficient (b : Backtracking ℝ) (value : Vec ℝ → Checked ℝ ℝ) (x direction : Vec ℝ)
    (v slope step : ℝ) (k : ℕ) : Prop :=
  ∃ w, value (b.reached x direction step k) = .ok w ∧
    w - v ≤ -b.alpha * (step * b.beta ^ k) * slope

structure Landed (b : Backtracking ℝ) (value : Vec ℝ → Checked ℝ ℝ) (x direction : Vec ℝ)
    (step : ℝ) (k : ℕ) (t : Trial ℝ) : Prop where
  step_eq : t.step = step * b.beta ^ k
  x_eq : t.x = b.reached x direction step k
  value_eq : value t.x = .ok t.value

theorem Landed.sufficient_iff {t : Trial ℝ} (h : b.Landed value x direction step k t) :
    b.Sufficient value x direction v slope step k ↔ b.insufficient v slope t = false := by
  unfold Sufficient insufficient
  rw [← h.x_eq, ← h.step_eq, h.value_eq, decide_eq_false_iff_not, not_lt]
  constructor
  · rintro ⟨w, hw, hle⟩
    exact Except.ok.inj hw ▸ hle
  · exact fun hle => ⟨t.value, rfl, hle⟩

theorem Landed.not_sufficient_iff {t : Trial ℝ} (h : b.Landed value x direction step k t) :
    ¬ b.Sufficient value x direction v slope step k ↔ b.insufficient v slope t = true := by
  rw [h.sufficient_iff, Bool.not_eq_false]

/-- The test on the trial before repeats the one that this trial was put to, as its bound is
divided by the factor that the step was multiplied by. -/
theorem previousFine_eq (hbeta : b.beta ≠ 0) {before t : Trial ℝ}
    (hstep : t.step = before.step * b.beta) :
    b.previousFine v slope before.value t = !b.insufficient v slope before := by
  have hbound : -b.alpha * t.step * slope / b.beta = -b.alpha * before.step * slope := by
    rw [hstep]
    field_simp
  unfold previousFine insufficient
  rw [hbound, ← decide_not]
  exact decide_eq_decide.mpr not_lt.symm

theorem leads_trial_landed (evaluates : f.Evaluates value gradient) (hp : p.point = x) {s : ℝ}
    (hs : s = step * b.beta ^ k) :
    Leads (trial f.free direction s) p
      (fun t p' => b.Landed value x direction step k t ∧ p'.point = x)
      (fun e p' => p'.point = x ∧ (requireSame x.length direction.length = .error e ∨
        value (b.reached x direction step k) = .error e)) := by
  subst hp hs
  exact (leads_trial_free evaluates direction _ p).imp
    fun t p' ⟨hstep, hx, hvalue, hpoint⟩ => ⟨⟨hstep, hx, hvalue⟩, hpoint⟩

/-! ## First powers -/

/-- A search over the powers up to `N` ends at `m`: at the first one that passes, or behind
the last one. -/
structure EndsAt (passes : ℕ → Prop) (N m : ℕ) (succeeded : Bool) : Prop where
  none_before : ∀ j < m, ¬ passes j
  here : if succeeded then m ≤ N ∧ passes m else m = N + 1

variable {passes : ℕ → Prop} {succeeded : Bool}

theorem EndsAt.le (h : EndsAt passes N m succeeded) : m ≤ N + 1 := by
  have hhere := h.here
  cases succeeded with
  | true => exact Nat.le_succ_of_le hhere.1
  | false => exact Nat.le_of_eq hhere

theorem EndsAt.succeeded_iff (h : EndsAt passes N m succeeded) :
    succeeded = true ↔ ∃ k ≤ N, passes k := by
  have hhere := h.here
  cases succeeded with
  | true => exact ⟨fun _ => ⟨m, hhere⟩, fun _ => rfl⟩
  | false =>
      refine ⟨nofun, ?_⟩
      rintro ⟨k, hk, hpasses⟩
      obtain rfl : m = N + 1 := hhere
      exact absurd hpasses (h.none_before k (Nat.lt_succ_of_le hk))

theorem EndsAt.eq_of_first (h : EndsAt passes N m succeeded) (hk : k ≤ N) (hpasses : passes k)
    (hfirst : ∀ j < k, ¬ passes j) : m = k := by
  have hle : m ≤ k := Nat.le_of_not_lt fun hlt => h.none_before k hlt hpasses
  rw [(h.succeeded_iff.mpr ⟨k, hk, hpasses⟩)] at h
  exact Nat.le_antisymm hle (Nat.le_of_not_lt fun hlt => hfirst m hlt h.here.2)

/-! ## The loop -/

def Breaks (b : Backtracking ℝ) (value : Vec ℝ → Checked ℝ ℝ)
    (gradient : Vec ℝ → Checked ℝ (Vec ℝ)) (x direction : Vec ℝ) (v slope step : ℝ) (N : ℕ)
    (e : Failure ℝ) : Prop :=
  requireSame x.length direction.length = .error e ∨
    ∃ k ≤ N + 1, (∀ j < k, ¬ b.Sufficient value x direction v slope step j) ∧
      (value (b.reached x direction step k) = .error e ∨
        gradient (b.reached x direction step k) = .error e)

/-- The trial `t` at the end of the loop, with `N + 1` trials after the first one at most. -/
def Found (b : Backtracking ℝ) (value : Vec ℝ → Checked ℝ ℝ) (x direction : Vec ℝ)
    (v slope step : ℝ) (N : ℕ) (t : Trial ℝ) (succeeded : Bool) : Prop :=
  ∃ m, b.Landed value x direction step m t ∧
    EndsAt (b.Sufficient value x direction v slope step) N m succeeded

theorem leads_backtrack_found (evaluates : f.Evaluates value gradient) (hbeta : b.beta ≠ 0)
    (hN : k + n = N) {before : Trial ℝ} (hbefore : b.Landed value x direction step k before)
    (hnone : ∀ j < k + 1, ¬ b.Sufficient value x direction v slope step j) (hp : p.point = x) :
    Leads (b.backtrack f.free direction v slope n before) p
      (fun (t, succeeded) p' => b.Found value x direction v slope step N t succeeded ∧
        p'.point = x)
      (fun e p' => p'.point = x ∧ b.Breaks value gradient x direction v slope step N e) := by
  have hnext {before : Trial ℝ} {k : ℕ} (hbefore : b.Landed value x direction step k before) :
      before.step * b.beta = step * b.beta ^ (k + 1) := by
    rw [hbefore.step_eq, pow_succ, mul_assoc]
  have hbreaks {k : ℕ} {e : Failure ℝ} (hk : k ≤ N)
      (hnone : ∀ j < k + 1, ¬ b.Sufficient value x direction v slope step j)
      (h : requireSame x.length direction.length = .error e ∨
        value (b.reached x direction step (k + 1)) = .error e) :
      b.Breaks value gradient x direction v slope step N e :=
    h.imp_right fun hvalue => ⟨k + 1, Nat.succ_le_succ hk, hnone, .inl hvalue⟩
  induction n generalizing k before p with
  | zero =>
      obtain rfl : k = N := hN
      unfold backtrack
      simp only [leads_bind, leads_pure]
      exact (leads_trial_landed evaluates hp (hnext hbefore)).mono
        (fun t p' h => ⟨⟨k + 1, h.1, hnone, rfl⟩, h.2⟩)
        (fun e p' h => ⟨h.1, hbreaks le_rfl hnone h.2⟩)
  | succ n ih =>
      have hrest : k + 1 + n = N := by omega
      have hk : k + 1 ≤ N := by omega
      unfold backtrack
      simp only [leads_bind, leads_pure, leads_ite]
      refine (leads_trial_landed evaluates hp (hnext hbefore)).mono (fun t p' h => ?_)
        (fun e p' h => ⟨h.1, hbreaks (Nat.le_of_succ_le hk) hnone h.2⟩)
      obtain ⟨ht, hp'⟩ := h
      -- the trial before has failed, so of the two tests the one on `t` is left
      have hfails : b.insufficient v slope before = true :=
        hbefore.not_sufficient_iff.mp (hnone k (Nat.lt_succ_self k))
      rw [previousFine_eq hbeta (ht.step_eq.trans (hnext hbefore).symm), hfails, Bool.not_true,
        Bool.or_false]
      refine ⟨fun hshort => ih hrest ht (fun j hj => ?_) hp', fun hfine => ?_⟩
      · rcases Nat.lt_succ_iff_lt_or_eq.mp hj with hlt | rfl
        · exact hnone j hlt
        · exact ht.not_sufficient_iff.mpr hshort
      · exact ⟨⟨k + 1, ht, hnone, hk, ht.sufficient_iff.mpr ((Bool.not_eq_true _).mp hfine)⟩, hp'⟩

theorem leads_backtrackFrom_found (evaluates : f.Evaluates value gradient) (hbeta : b.beta ≠ 0)
    {first : Trial ℝ} (hfirst : b.Landed value x direction step 0 first) (hp : p.point = x) :
    Leads (backtrackFrom b f.free N direction v slope first) p
      (fun (t, succeeded) p' => b.Found value x direction v slope step N t succeeded ∧
        p'.point = x)
      (fun e p' => p'.point = x ∧ b.Breaks value gradient x direction v slope step N e) := by
  unfold backtrackFrom
  rw [leads_ite]
  refine ⟨fun hshort => ?_, fun hfine => ?_⟩
  · refine leads_backtrack_found evaluates hbeta (Nat.zero_add N) hfirst (fun j hj => ?_) hp
    obtain rfl : j = 0 := Nat.lt_one_iff.mp hj
    exact hfirst.not_sufficient_iff.mpr hshort
  · have hpasses := hfirst.sufficient_iff.mpr ((Bool.not_eq_true _).mp hfine)
    exact ⟨⟨0, hfirst, nofun, Nat.zero_le N, hpasses⟩, hp⟩

/-! ## The search -/

/-- What a search from `p` may fail with. -/
def Fails (b : Backtracking ℝ) (f : Objective σ ℝ) (value : Vec ℝ → Checked ℝ ℝ)
    (gradient : Vec ℝ → Checked ℝ (Vec ℝ)) (direction : Vec ℝ) (step : ℝ) (N : ℕ)
    (p : Progress σ ℝ) (e : Failure ℝ) : Prop :=
  (∃ p₁, origin f.free direction p = (.error e, p₁)) ∨
    ∃ v slope, Begins p value gradient direction v slope ∧
      b.Breaks value gradient p.point direction v slope step N e

theorem leads_finish_found (evaluates : f.Evaluates value gradient) {t : Trial ℝ}
    (h : b.Found value x direction v slope step N t succeeded) (hp : p.point = x) :
    Leads (finish f.free slope t succeeded) p
      (fun r p' => p'.point = x ∧ r.slope = slope ∧
        b.Found value x direction v slope step N r.trial r.succeeded)
      (fun e p' => p'.point = x ∧ b.Breaks value gradient x direction v slope step N e) := by
  obtain ⟨m, ht, hends⟩ := h
  unfold finish
  simp only [leads_bind, leads_pure]
  refine (leads_gradient_answers evaluates t.x p).mono
    (fun g p' hg => ⟨hg.2.trans hp, trivial, m, ht, hends⟩) (fun e p' hg => ?_)
  exact ⟨hg.2.trans hp, .inr ⟨m, hends.le, hends.none_before, .inr (ht.x_eq ▸ hg.1)⟩⟩

theorem leads_search_found (evaluates : f.Evaluates value gradient) (hbeta : b.beta ≠ 0)
    (budget : ℕ) (direction : Vec ℝ) (step : ℝ) (p : Progress σ ℝ) :
    Leads (b.search f.free budget direction step) p
      (fun r p' => p'.point = p.point ∧ ∃ v, Begins p value gradient direction v r.slope ∧
        b.Found value p.point direction v r.slope step budget r.trial r.succeeded)
      (fun e p' => p'.point = p.point ∧ b.Fails f value gradient direction step budget p e) := by
  rw [backtracking_search_eq]
  simp only [leads_bind]
  refine (leads_origin_begins evaluates f.free.allows_true rfl trivial direction).mono_run
    (fun o p₁ _ ho => ?_) (fun e p₁ hrun ho => ⟨ho.point_eq, .inl ⟨p₁, hrun⟩⟩)
  obtain ⟨hbegins, hstays⟩ := ho
  have hlater {e : Failure ℝ}
      (h : b.Breaks value gradient p.point direction o.1 o.2 step budget e) :
      b.Fails f value gradient direction step budget p e := .inr ⟨_, _, hbegins, h⟩
  have hzero : step = step * b.beta ^ 0 := by rw [pow_zero, mul_one]
  refine (leads_trial_landed evaluates hstays.point_eq hzero).mono (fun first p₂ hfirst => ?_)
    (fun e p₂ h => ?_)
  · refine (leads_backtrackFrom_found evaluates hbeta hfirst.1 hfirst.2).mono
      (fun found p₃ hfound => ?_) (fun e p₃ h => ⟨h.1, hlater h.2⟩)
    refine (leads_finish_found evaluates hfound.1 hfound.2).mono (fun r p₄ hr => ?_)
      (fun e p₄ h => ⟨h.1, hlater h.2⟩)
    obtain ⟨hpoint, hslope, hr⟩ := hr
    rw [← hslope] at hbegins hr
    exact ⟨hpoint, o.1, hbegins, hr⟩
  · have hbreaks : b.Breaks value gradient p.point direction o.1 o.2 step budget e :=
      h.2.imp_right fun hvalue => ⟨0, Nat.zero_le _, by rintro _ ⟨⟩, .inl hvalue⟩
    exact ⟨h.1, hlater hbreaks⟩

/-- Without a constraint, and with any cost that is a function of the point: the search succeeds
exactly if one of the steps `step * beta ^ k` with `k` within the budget decreases the value by
enough, and then it returns the first of these.  The current point stays.  An error comes from
the evaluations at the start, from lengths that differ, or from an evaluation at one of the
points up to the first one that is good enough. -/
theorem search_first_sufficient (evaluates : f.Evaluates value gradient) (hbeta : b.beta ≠ 0)
    (budget : ℕ) (direction : Vec ℝ) (step : ℝ) (p : Progress σ ℝ) :
    Leads (b.search f.free budget direction step) p
      (fun r p' => p'.point = p.point ∧ ∃ v, Begins p value gradient direction v r.slope ∧
        (r.succeeded = true ↔
          ∃ k ≤ budget, b.Sufficient value p.point direction v r.slope step k) ∧
        ∀ k ≤ budget, b.Sufficient value p.point direction v r.slope step k →
          (∀ j < k, ¬ b.Sufficient value p.point direction v r.slope step j) →
          r.step = step * b.beta ^ k ∧ r.x = Region.along p.point direction r.step ∧
            value r.x = .ok r.value)
      (fun e p' => p'.point = p.point ∧ b.Fails f value gradient direction step budget p e) := by
  refine (leads_search_found evaluates hbeta budget direction step p).imp fun r p' h => ?_
  obtain ⟨hpoint, v, hbegins, m, hlanded, hends⟩ := h
  refine ⟨hpoint, v, hbegins, hends.succeeded_iff, fun k hk hpasses hfirst => ?_⟩
  obtain rfl := hends.eq_of_first hk hpasses hfirst
  have hstep : r.step = step * b.beta ^ m := hlanded.step_eq
  exact ⟨hstep, hstep ▸ hlanded.x_eq, hlanded.value_eq⟩

/-! ### A parabola -/

theorem begins_parabola {d : ℝ}
    (h : Begins atOne (Cost.answer Descent.parabola.value)
      (Cost.answer fun x => .ok (Vec.scale 2.0 x)) [d] v slope) :
    v = 1 ∧ slope = -(2 * d) := by
  obtain hstored | ⟨-, hvalue⟩ := h.value_eq
  · contradiction
  obtain ⟨g, hg, -, rfl⟩ := h.slope_eq
  obtain rfl : Vec.scale 2.0 [1] = g := Except.ok.inj hg
  obtain rfl : Vec.dot [1] [1] = v := Except.ok.inj hvalue
  exact ⟨by rw [dot_self_singleton, one_pow], by rw [slope_parabola]⟩

theorem sufficient_parabola_iff :
    b.Sufficient (Cost.answer Descent.parabola.value) [1] [-2] 1 4 1 k ↔
      (1 + -2 * b.beta ^ k) ^ 2 - 1 ≤ -b.alpha * b.beta ^ k * 4 := by
  have hvalue : Cost.answer Descent.parabola.value (b.reached [1] [-2] 1 k) =
      .ok ((1 + -2 * (1 * b.beta ^ k)) ^ 2) := congrArg Except.ok (dot_self_singleton _)
  unfold Sufficient
  rw [hvalue, one_mul]
  constructor
  · rintro ⟨w, hw, hle⟩
    exact Except.ok.inj hw ▸ hle
  · exact fun hle => ⟨_, rfl, hle⟩

theorem search_first_sufficient_parabola :
    (Backtracking.usual : Backtracking ℝ).beta ≠ 0 ∧
      Leads ((Backtracking.usual : Backtracking ℝ).search parabola 100 [-2] 1) atOne
        (fun r p' => p'.point = [1] ∧ r.succeeded = true ∧ r.step = 0.65 ∧ r.x = [-0.3])
        (fun _ _ => False) := by
  have hbeta : (Backtracking.usual : Backtracking ℝ).beta ≠ 0 := by norm_num [Backtracking.usual]
  refine ⟨hbeta, ?_⟩
  refine (search_first_sufficient (Cost.objective_evaluates rfl) hbeta 100 [-2] 1 atOne).mono
    (fun r p' h => ?_) (fun e p' h => ?_)
  · obtain ⟨hpoint, v, hbegins, hsucceeded, hfirst⟩ := h
    obtain ⟨rfl, hslope⟩ := begins_parabola hbegins
    have hfour : r.slope = 4 := hslope.trans (by norm_num)
    rw [hfour] at hsucceeded hfirst
    have hpasses : (Backtracking.usual : Backtracking ℝ).Sufficient
        (Cost.answer Descent.parabola.value) [1] [-2] 1 4 1 1 := by
      rw [sufficient_parabola_iff]
      norm_num [Backtracking.usual]
    have hfails : ¬ (Backtracking.usual : Backtracking ℝ).Sufficient
        (Cost.answer Descent.parabola.value) [1] [-2] 1 4 1 0 := by
      rw [sufficient_parabola_iff]
      norm_num [Backtracking.usual]
    obtain ⟨hstep, hx, -⟩ := hfirst 1 (by decide) hpasses fun j hj => by
      obtain rfl : j = 0 := Nat.lt_one_iff.mp hj
      exact hfails
    have hbelow : r.step = 0.65 := hstep.trans (by norm_num [Backtracking.usual])
    refine ⟨hpoint, hsucceeded.mpr ⟨1, by decide, hpasses⟩, hbelow, ?_⟩
    rw [hx, hbelow]
    change [1 + -2 * (0.65 : ℝ)] = _
    norm_num
  · obtain ⟨-, ⟨p₁, hrun⟩ | ⟨v, slope, -, hlength | ⟨k, -, -, hvalue | hgradient⟩⟩⟩ := h
    · obtain ⟨p₂, horigin, -⟩ := origin_parabola (-2)
      exact absurd (hrun.symm.trans horigin) nofun
    · contradiction
    · contradiction
    · contradiction

end Backtracking

end Minima
