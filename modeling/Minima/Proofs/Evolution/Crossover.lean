import Mathlib.Algebra.Order.Field.GeomSum
import Minima.Proofs.Evolution.Box
import Minima.Proofs.Zero

/-!
# Chances of crossover

In exact arithmetic every crossover turns a probability into a probability, and does not turn a
greater one into a smaller one.  The exponential one is a geometric sum, where its formula is used
and where it is not, up to the dimension from which its exponent wraps.  What adapts stays between
zero and one, so the masks of every generation are drawn with probabilities.
-/

namespace Minima

/-! ## Powers -/

theorem Scalar.powNat_go_real (result a : ℝ) (n : ℕ) :
    Scalar.powNat.go result a n = result * a ^ n := by
  fun_induction Scalar.powNat.go result a n with
  | case1 result a => rw [pow_zero, mul_one]
  | case2 result a n hn ih =>
      have hdigits := Nat.div_add_mod n 2
      rw [dite_eq_ite] at ih
      rw [ih, ← sq, ← pow_mul]
      rcases Nat.mod_two_eq_zero_or_one n with heven | hodd
      · rw [heven, add_zero] at hdigits
        rw [if_neg (by omega), hdigits]
      · rw [hodd] at hdigits
        rw [if_pos hodd, mul_assoc, ← pow_succ', hdigits]

@[simp]
theorem Scalar.powNat_real (a : ℝ) (n : ℕ) : Scalar.powNat a n = a ^ n := by
  rw [Scalar.powNat, Scalar.powNat_go_real, one_mul]

@[simp]
theorem Scalar.powi_real (a : ℝ) (e : ℤ) : Scalar.powi a e = a ^ e := by
  unfold Scalar.powi
  split
  case isTrue hneg =>
    rw [powNat_real, one_div, ← zpow_natCast, ← zpow_neg, Int.ofNat_natAbs_of_nonpos hneg.le,
      neg_neg]
  case isFalse hnonneg =>
    rw [powNat_real, ← zpow_natCast, Int.natAbs_of_nonneg (not_lt.mp hnonneg)]

namespace Crossover

variable {n : ℕ} {cr : ℝ}

/-! ## The probability of a coordinate -/

/-- The exponent, where the crossover raises to a power, is not wrapped. -/
def Fits (c : Crossover) (n : ℕ) : Prop := c = exponential → n < 2 ^ 31

theorem toInt_ofNat_eq_iff : (Int32.ofNat n).toInt = n ↔ n < 2 ^ 31 := by
  refine ⟨fun h => ?_, Int32.toInt_ofNat_of_lt⟩
  have hlt := Int32.toInt_lt (Int32.ofNat n)
  rw [h] at hlt
  exact_mod_cast hlt

theorem mutationProbability_of_ne_one (hcr : cr ≠ 1) (n : ℕ) :
    exponential.mutationProbability cr n =
      (1 - cr ^ (Int32.ofNat n).toInt) / (n * (1 - cr)) := by
  have hsame : Scalar.same cr 1 = false := by
    rw [← Bool.not_eq_true, same_real]
    exact hcr
  rw [mutationProbability, hsame, if_neg Bool.false_ne_true, Scalar.powi_real]

theorem mean_pow_of_ne_one (hcr : cr ≠ 1) (n : ℕ) :
    (∑ i ∈ Finset.range n, cr ^ i) / n = (1 - cr ^ n) / (n * (1 - cr)) := by
  rw [← mul_neg_geom_sum, mul_comm (n : ℝ), mul_div_mul_left _ _ (sub_ne_zero.mpr hcr.symm)]

theorem mutationProbability_one (c : Crossover) (n : ℕ) :
    c.mutationProbability (1 : ℝ) n = 1 := by
  cases c with
  | normal => rfl
  | binomial => simp [mutationProbability]
  | exponential => exact if_pos (same_real.mpr rfl)

theorem mutationProbability_exponential (hn : 0 < n) (hfits : n < 2 ^ 31) (cr : ℝ) :
    exponential.mutationProbability cr n = (∑ i ∈ Finset.range n, cr ^ i) / n := by
  rcases eq_or_ne cr 1 with rfl | hcr
  · have hpos : (n : ℝ) ≠ 0 := Nat.cast_ne_zero.mpr hn.ne'
    simp [mutationProbability_one, hpos]
  · rw [mutationProbability_of_ne_one hcr, mean_pow_of_ne_one hcr, toInt_ofNat_eq_iff.mpr hfits,
      zpow_natCast]

/-- Strictly between zero and one the exponential crossover gives the mean of the powers in those
dimensions only whose exponents are not wrapped. -/
theorem mutationProbability_exponential_eq_iff (hn : 0 < n) (hcr : cr ∈ Set.Ioo 0 1) :
    exponential.mutationProbability cr n = (∑ i ∈ Finset.range n, cr ^ i) / n ↔ n < 2 ^ 31 := by
  refine ⟨fun h => ?_, fun hfits => mutationProbability_exponential hn hfits cr⟩
  have hpos : (n : ℝ) ≠ 0 := Nat.cast_ne_zero.mpr hn.ne'
  have hdenominator : (n : ℝ) * (1 - cr) ≠ 0 := mul_ne_zero hpos (sub_ne_zero.mpr hcr.2.ne')
  rw [mutationProbability_of_ne_one hcr.2.ne, mean_pow_of_ne_one hcr.2.ne,
    div_left_inj' hdenominator, sub_right_inj, ← zpow_natCast,
    zpow_right_inj₀ hcr.1 hcr.2.ne] at h
  exact toInt_ofNat_eq_iff.mp h

theorem mutationProbability_neg (hn : 0 < n) (hcr : cr ∈ Set.Ioo 0 1)
    (hwraps : (Int32.ofNat n).toInt < 0) : exponential.mutationProbability cr n < 0 := by
  have hpow : 1 < cr ^ (Int32.ofNat n).toInt := one_lt_zpow_of_neg₀ hcr.1 hcr.2 hwraps
  rw [mutationProbability_of_ne_one hcr.2.ne]
  exact div_neg_of_neg_of_pos (sub_neg.mpr hpow)
    (mul_pos (Nat.cast_pos.mpr hn) (sub_pos.mpr hcr.2))

theorem mutationProbability_zero {c : Crossover} (hc : c ≠ normal) (hn : 0 < n)
    (hfits : c.Fits n) : c.mutationProbability (0 : ℝ) n = 1 / n := by
  cases c with
  | normal => exact absurd rfl hc
  | binomial => simp [mutationProbability]
  | exponential =>
      rw [mutationProbability_exponential hn (hfits rfl), zero_geom_sum, if_neg hn.ne']

theorem monotoneOn_mutationProbability (c : Crossover) (hn : 0 < n) (hfits : c.Fits n) :
    MonotoneOn (fun cr : ℝ => c.mutationProbability cr n) (Set.Icc 0 1) := by
  intro a ha b hb hab
  have hone : (1 : ℝ) ≤ n := Nat.one_le_cast.mpr hn
  cases c with
  | normal => exact hab
  | binomial =>
      have hrest : 0 ≤ 1 - 1 / (n : ℝ) := sub_nonneg.mpr ((div_le_one (by linarith)).mpr hone)
      exact add_le_add_left (mul_le_mul_of_nonneg_right hab hrest) _
  | exponential =>
      simp only [mutationProbability_exponential hn (hfits rfl)]
      refine div_le_div_of_nonneg_right (Finset.sum_le_sum fun i _ => ?_) (by linarith)
      exact pow_le_pow_left₀ ha.1 hab i

/-- A probability for a coordinate among `n`.  Unless the crossover is the normal one, it is not
less than that of one coordinate chosen among all. -/
def IsChance (c : Crossover) (n : ℕ) (p : ℝ) : Prop :=
  p ∈ Set.Icc 0 1 ∧ (c ≠ normal → 1 / (n : ℝ) ≤ p)

theorem isChance_mutationProbability (c : Crossover) (hn : 0 < n) (hfits : c.Fits n)
    (hcr : cr ∈ Set.Icc 0 1) : c.IsChance n (c.mutationProbability cr n) := by
  -- Between the ends of the interval the values lie between those at the ends.
  have hmono := c.monotoneOn_mutationProbability hn hfits
  have hle := hmono hcr ⟨zero_le_one, le_rfl⟩ hcr.2
  have hge := hmono ⟨le_rfl, zero_le_one⟩ hcr hcr.1
  dsimp only at hle hge
  rw [c.mutationProbability_one] at hle
  rcases eq_or_ne c normal with rfl | hc
  · exact ⟨hcr, fun hc => absurd rfl hc⟩
  · rw [mutationProbability_zero hc hn hfits] at hge
    exact ⟨⟨le_trans (by positivity) hge, hle⟩, fun _ => hge⟩

end Crossover

namespace Evolution

variable {ρ σ : Type} {P : Problem σ ℝ} {box : Setup ℝ} {n : ℕ} {state first : State ℝ}
  {s s₁ s₂ : Session σ (Evolution ρ ℝ) ℝ} {probabilities : Vec ℝ}

/-! ## Masks -/

def chances {α : Type} [Scalar α] (c : Settings α) (crossover : Vec α) : Vec α :=
  crossover.map fun cr => c.crossover.mutationProbability cr crossover.length

/-- A mask for each member, each coordinate true if the number drawn for it is below its chance. -/
def masksBy {α : Type} [Scalar α] [RandomSource ρ] (population : List (Candidate α))
    (chances : Vec α) : StateM ρ (List (List Bool)) :=
  population.mapM fun _ => chances.mapM fun p => do return decide ((← Random.uniform) < p)

theorem drawMasks_eq [RandomSource ρ] (c : Settings ℝ) (population : List (Candidate ℝ))
    (probabilities : Vec ℝ) (r : ρ) :
    (drawMasks c population probabilities r).1 = ((adaptProbabilities c probabilities r).1,
      (masksBy population (chances c (adaptProbabilities c probabilities r).1)
        (adaptProbabilities c probabilities r).2).1) := rfl

def AreProbabilities (n : ℕ) (probabilities : Vec ℝ) : Prop :=
  probabilities.length = n ∧ ∀ cr ∈ probabilities, cr ∈ Set.Icc 0 1

theorem AreProbabilities.chances (h : AreProbabilities n probabilities) (c : Settings ℝ)
    (hfits : c.crossover.Fits n) :
    (chances c probabilities).length = n ∧
      ∀ p ∈ chances c probabilities, c.crossover.IsChance n p := by
  obtain ⟨rfl, hmem⟩ := h
  refine ⟨List.length_map _, fun p hp => ?_⟩
  obtain ⟨cr, hcr, rfl⟩ := List.mem_map.mp hp
  exact c.crossover.isChance_mutationProbability (List.length_pos_of_mem hcr) hfits (hmem cr hcr)

variable [RandomSource ρ]

theorem draws_adaptProbabilities (c : Settings ℝ) (h : AreProbabilities n probabilities) :
    Draws (adaptProbabilities c probabilities : StateM ρ (Vec ℝ)) (AreProbabilities n) := by
  unfold adaptProbabilities
  refine draws_ite (fun _ => ?_) fun _ => draws_pure h
  refine (draws_mapM_all (Q := (· ∈ Set.Icc (0 : ℝ) 1)) fun cr hcr => ?_).mono
    fun adapted hadapted => ⟨hadapted.1.trans h.1, hadapted.2⟩
  refine (draws_true _).bind fun u _ => draws_ite (fun _ => ?_) fun _ => draws_pure (h.2 cr hcr)
  exact draws_uniform.mono fun t ht => ⟨ht.1.le, ht.2.le⟩

/-! ## Generations -/

theorem leads_start_probabilities (P : Problem σ ℝ) (s : Session σ (Evolution ρ ℝ) ℝ) :
    Leads (start P) s
      (fun r s' => r.1.settings = s.memory.settings ∧ s.progress.point ≠ [] ∧
        s'.memory.probabilities =
          s.progress.point.map fun _ => s.memory.settings.crossoverProbability)
      (fun _ _ => True) := by
  unfold start
  simp only [leads_bind, leads_reset, leads_get, leads_ite, leads_throw, leads_attempt,
    Progress.reset]
  refine ⟨fun _ => trivial, fun hempty => ?_⟩
  cases hsetup : setup P.region s.memory.settings s.progress.point with
  | error e => trivial
  | ok box =>
      obtain ⟨hsettings, -⟩ := setup_eq_ok hsetup
      simp only [leads_remember, box_eq hsettings]
      refine (leads_true (firstPopulation P box) _).imp fun made s₁ _ => ?_
      cases bestToFront made with
      | nil => trivial
      | cons first rest => exact ⟨hsettings, by simpa using hempty, rfl⟩

theorem leads_pass_probabilities (P : Problem σ ℝ) (box : Setup ℝ) (k : ℕ) (state : State ℝ)
    (s : Session σ (Evolution ρ ℝ) ℝ) (h : AreProbabilities n s.memory.probabilities) :
    Leads (pass P box k state) s (fun _ s' => AreProbabilities n s'.memory.probabilities)
      (fun _ _ => True) := by
  unfold pass
  rw [leads_bind, leads_check, leads_ite]
  refine ⟨fun _ => h, fun _ => ?_⟩
  have hnext : Leads (nextGeneration P box state)
      { s with rule := (s.rule.checkMaxIterations k).2 }
      (fun _ s' => AreProbabilities n s'.memory.probabilities) (fun _ _ => True) := by
    unfold nextGeneration
    rw [leads_bind, leads_get]
    refine (leads_true (draw _) _).bind fun (made, weights) s₁ _ => ?_
    have hmasks : Leads (draw (drawMasks box.settings state.population s.memory.probabilities)) s₁
        (fun drawn _ => AreProbabilities n drawn.1) (fun _ _ => True) :=
      draws_adaptProbabilities box.settings h s₁.memory.source
    refine hmasks.bind fun (probabilities, masks) s₂ hprobabilities => ?_
    rw [leads_bind, leads_remember, leads_bind]
    refine (leads_select_adapted box _ _ _ _ _).imp fun _ s₃ hsame => ?_
    rw [leads_pure, hsame.2]
    exact hprobabilities
  exact hnext.bind fun next s₁ hprobabilities => hprobabilities

theorem Reaches.areProbabilities (hstart : start P s = (.ok (box, first), s₁))
    (hreaches : Reaches P box first s₁ state s₂)
    (hcr : s.memory.settings.crossoverProbability ∈ Set.Icc 0 1) :
    AreProbabilities s.progress.point.length s₂.memory.probabilities := by
  obtain ⟨-, -, hfirst⟩ := (leads_start_probabilities P s).of_ok hstart
  have hprobabilities : AreProbabilities s.progress.point.length s₁.memory.probabilities := by
    rw [hfirst]
    refine ⟨List.length_map _, fun cr hmem => ?_⟩
    obtain ⟨-, -, rfl⟩ := List.mem_map.mp hmem
    exact hcr
  exact hreaches.keeps (I := fun _ s => AreProbabilities _ s.memory.probabilities)
    (leads_pass_probabilities P box) hprobabilities

omit [RandomSource ρ] in
theorem crossoverProbability_mem_of_new {c : Settings ℝ} {source : ρ} {e : Evolution ρ ℝ}
    (h : new c source = .ok e) : e.settings.crossoverProbability ∈ Set.Icc 0 1 := by
  unfold new Settings.validate at h
  split at h
  · cases h
  split at h
  · cases h
  rename_i hcr
  split at h
  · cases h
  split at h
  · cases h
  · cases h
    exact not_not.mp hcr

/-- In dimensions whose exponents are not wrapped every crossover takes probabilities to
probabilities and does not fall, and but for the normal one its chances are at least one in `n`.
There the exponential one gives the mean of the powers below the `n`th, at `1` as well, and
strictly between zero and one it does so nowhere else.  From a crossover probability that a method
can be made with, every generation draws its masks with such chances, whether its probabilities
adapt or not. -/
theorem masks_drawn_with_probabilities (P : Problem σ ℝ) :
    (∀ (c : Crossover) (n : ℕ), 0 < n → c.Fits n →
      MonotoneOn (fun cr : ℝ => c.mutationProbability cr n) (Set.Icc 0 1) ∧
        ∀ cr : ℝ, cr ∈ Set.Icc 0 1 → c.IsChance n (c.mutationProbability cr n)) ∧
    (∀ (cr : ℝ) (n : ℕ), 0 < n → n < 2 ^ 31 →
      Crossover.exponential.mutationProbability cr n = (∑ i ∈ Finset.range n, cr ^ i) / n) ∧
    (∀ (cr : ℝ) (n : ℕ), 0 < n → cr ∈ Set.Ioo 0 1 →
      (Crossover.exponential.mutationProbability cr n = (∑ i ∈ Finset.range n, cr ^ i) / n ↔
        n < 2 ^ 31)) ∧
    (∀ (c : Settings ℝ) (source : ρ) (e : Evolution ρ ℝ), new c source = .ok e →
      e.settings.crossoverProbability ∈ Set.Icc 0 1) ∧
    ∀ (s : Session σ (Evolution ρ ℝ) ℝ) (box : Setup ℝ) (first : State ℝ)
      (s₁ : Session σ (Evolution ρ ℝ) ℝ) (state : State ℝ) (s₂ : Session σ (Evolution ρ ℝ) ℝ),
      s.memory.settings.crossoverProbability ∈ Set.Icc 0 1 →
      s.memory.settings.crossover.Fits s.progress.point.length →
      start P s = (.ok (box, first), s₁) → Reaches P box first s₁ state s₂ →
        box.settings = s.memory.settings ∧ 0 < s.progress.point.length ∧
        AreProbabilities s.progress.point.length s₂.memory.probabilities ∧
        ∀ r : ρ, ∃ crossover r',
          adaptProbabilities box.settings s₂.memory.probabilities r = (crossover, r') ∧
          (drawMasks box.settings state.population s₂.memory.probabilities r).1 =
            (crossover, (masksBy state.population (chances box.settings crossover) r').1) ∧
          (chances box.settings crossover).length = s.progress.point.length ∧
          ∀ p ∈ chances box.settings crossover,
            box.settings.crossover.IsChance s.progress.point.length p := by
  refine ⟨fun c n hn hfits => ⟨c.monotoneOn_mutationProbability hn hfits, fun cr hcr =>
      c.isChance_mutationProbability hn hfits hcr⟩, fun cr n hn hfits =>
      Crossover.mutationProbability_exponential hn hfits cr, fun cr n hn hcr =>
      Crossover.mutationProbability_exponential_eq_iff hn hcr, fun c source e h =>
      crossoverProbability_mem_of_new h, ?_⟩
  intro s box first s₁ state s₂ hcr hfits hstart hreaches
  obtain ⟨hsettings, hpoint, -⟩ := (leads_start_probabilities P s).of_ok hstart
  have hprobabilities := hreaches.areProbabilities hstart hcr
  rw [← hsettings] at hfits
  refine ⟨hsettings, List.length_pos_iff.mpr hpoint, hprobabilities, fun r => ?_⟩
  have hadapted := draws_adaptProbabilities box.settings hprobabilities r
  exact ⟨_, _, rfl, drawMasks_eq box.settings state.population _ r,
    hadapted.chances box.settings hfits⟩

/-- In the first dimension whose exponent is negative the exponential crossover turns one half into
a number below zero. -/
theorem mutationProbability_wrapped :
    (1 / 2 : ℝ) ∈ Set.Icc 0 1 ∧
      Crossover.exponential.mutationProbability (1 / 2 : ℝ) 2147483648 < 0 := by
  have hcr : (1 / 2 : ℝ) ∈ Set.Ioo 0 1 := by norm_num
  exact ⟨Set.Ioo_subset_Icc_self hcr,
    Crossover.mutationProbability_neg (by decide) hcr (by decide)⟩

/-! ## A run in two coordinates -/

noncomputable def adaptingPair : Session (List (Evaluation ℝ)) (Evolution Generator ℝ) ℝ where
  progress := .start [] [0.25, 0.75]
  rule := ⟨3, 2, 1e-8, 1e-8, 1e-8, .running, 0, Nat.one_lt_two, StoppingRule.two_le_three⟩
  memory := {
    settings := { Settings.usual with
      members := 2
      crossover := .exponential
      adaptive := true
      lower := some [0, 0]
      upper := some [1, 1] }
    source := .counter 0 }

theorem masks_drawn_with_probabilities_pair :
    Crossover.exponential.mutationProbability (1 / 2 : ℝ) 3 = 7 / 12 ∧
      Crossover.exponential.mutationProbability (1 : ℝ) 3 = 1 ∧
      ∃ box first s₁ state s₂,
        start ⟨bowl.objective, Constraint.none.region⟩ adaptingPair = (.ok (box, first), s₁) ∧
        Reaches ⟨bowl.objective, Constraint.none.region⟩ box first s₁ state s₂ ∧
        ∀ r : Generator, ∃ crossover r',
          adaptProbabilities box.settings s₂.memory.probabilities r = (crossover, r') ∧
          (drawMasks box.settings state.population s₂.memory.probabilities r).1 =
            (crossover, (masksBy state.population (chances box.settings crossover) r').1) ∧
          ∀ p ∈ chances box.settings crossover, 1 / 2 ≤ p ∧ p ≤ 1 := by
  have hcost (e : Failure ℝ) : ¬ Breaks ⟨bowl.objective, Constraint.none.region⟩ e := by
    rintro ⟨-, x, o, herror⟩
    cases herror
  have hsetup : setup Constraint.none.region adaptingPair.memory.settings [0.25, 0.75] =
      .ok ⟨adaptingPair.memory.settings, [0, 0], [1, 1]⟩ := setup_real rfl rfl rfl rfl
  obtain ⟨o, s', hrun⟩ := minimize_eq_ok (List.cons_ne_nil _ _) hsetup rfl rfl hcost
  obtain ⟨box, first, s₁, state, s₂, hstart, hreaches, -⟩ := minimize_reaches hrun
  obtain ⟨-, hmean, -, -, hruns⟩ :=
    masks_drawn_with_probabilities (ρ := Generator) ⟨bowl.objective, Constraint.none.region⟩
  have hcr : adaptingPair.memory.settings.crossoverProbability ∈ Set.Icc (0 : ℝ) 1 := by
    norm_num [adaptingPair, Settings.usual]
  have hfits : adaptingPair.memory.settings.crossover.Fits 2 := fun _ => by norm_num
  obtain ⟨hsettings, -, -, hmasks⟩ :=
    hruns adaptingPair box first s₁ state s₂ hcr hfits hstart hreaches
  refine ⟨?_, ?_, box, first, s₁, state, s₂, hstart, hreaches, fun r => ?_⟩
  · rw [hmean _ 3 (Nat.succ_pos 2) (by norm_num)]
    norm_num [Finset.sum_range_succ]
  · rw [hmean _ 3 (Nat.succ_pos 2) (by norm_num)]
    norm_num
  · obtain ⟨crossover, r', hadapted, hdrawn, -, hchances⟩ := hmasks r
    refine ⟨crossover, r', hadapted, hdrawn, fun p hp => ?_⟩
    obtain ⟨⟨-, hle⟩, hge⟩ := hchances p hp
    exact ⟨hge (by simp [hsettings, adaptingPair]), hle⟩

end Evolution

end Minima
