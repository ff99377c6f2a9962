import Minima.Proofs.Exact.Ordered
import Minima.Proofs.Constraint
import Minima.Proofs.Evolution.Runs
import Minima.Proofs.StoppingRule
import Minima.Random.Generator

/-!
# The box of a run

In exact arithmetic a coordinate beyond a bound comes back to a place between that bound and the
anchor.  So the box of the bounds is never left: not by random members, not by confined offspring,
and therefore by no anchor either.
-/

namespace Minima.Evolution

variable {ρ σ : Type} [RandomSource ρ] {l u m a : ℝ} {lower upper anchor x : Vec ℝ}

/-! ## Draws of reals -/

theorem fraction_mem (w : UInt64) : 0 < (Random.fraction w : ℝ) ∧ (Random.fraction w : ℝ) < 1 := by
  have hshift : w.toNat >>> 12 < 2 ^ 52 := by
    have hw := w.toNat_lt
    rw [Nat.shiftRight_eq_div_pow]
    omega
  have hodd : ((2 * (w.toNat >>> 12) + 1 : ℕ) : ℝ) < ((1 <<< 53 : ℕ) : ℝ) := by
    rw [Nat.cast_lt, Nat.shiftLeft_eq]
    omega
  have hpos : (0 : ℝ) < ((1 <<< 53 : ℕ) : ℝ) := by norm_num
  exact ⟨div_pos (Nat.cast_pos.mpr (Nat.succ_pos _)) hpos, (div_lt_one hpos).mpr hodd⟩

theorem draws_uniform : Draws (Random.uniform : StateM ρ ℝ) fun t => 0 < t ∧ t < 1 :=
  (draws_true _).bind fun w _ => draws_pure (fraction_mem w)

theorem mem_uIcc_of_fraction {bound anchor t : ℝ} (ht : 0 < t ∧ t < 1) :
    bound + t * (anchor - bound) ∈ Set.uIcc bound anchor := by
  obtain ⟨hpos, hlt⟩ := ht
  rw [Set.mem_uIcc]
  rcases le_total bound anchor with hle | hle
  · exact .inl ⟨by nlinarith, by nlinarith⟩
  · exact .inr ⟨by nlinarith, by nlinarith⟩

theorem draws_bounceOff (bound anchor a : ℝ) (beyond : Bool) :
    Draws (bounceOff bound anchor a beyond : StateM ρ ℝ) fun b =>
      (beyond = true ∧ b ∈ Set.uIcc bound anchor) ∨ (beyond = false ∧ b = a) := by
  unfold bounceOff
  refine draws_ite (fun hbeyond => ?_) fun hbeyond => ?_
  · exact draws_uniform.bind fun t ht =>
      draws_pure (.inl ⟨hbeyond, mem_uIcc_of_fraction ht⟩)
  · exact draws_pure (.inr ⟨eq_false_of_ne_true hbeyond, rfl⟩)

theorem draws_bounce {low high : ℝ} (hl : l ∈ Set.Icc low high) (hu : u ∈ Set.Icc low high)
    (hm : m ∈ Set.Icc low high) (a : ℝ) :
    Draws (bounce l u m a : StateM ρ ℝ) (· ∈ Set.Icc low high) := by
  unfold bounce
  refine (draws_bounceOff u m a _).bind fun b hb => ?_
  have hbelow : b ≤ high := by
    rcases hb with ⟨-, hmem⟩ | ⟨hinside, rfl⟩
    · exact (Set.uIcc_subset_Icc hu hm hmem).2
    · exact (not_lt.mp (of_decide_eq_false hinside)).trans hu.2
  refine (draws_bounceOff l m b _).mono fun d hd => ?_
  rcases hd with ⟨-, hmem⟩ | ⟨hinside, rfl⟩
  · exact Set.uIcc_subset_Icc hl hm hmem
  · exact ⟨hl.1.trans (not_lt.mp (of_decide_eq_false hinside)), hbelow⟩

/-! ## The box -/

/-- The coordinates lie between the bounds. -/
def Within (lower upper x : Vec ℝ) : Prop :=
  List.Forall₂ (· ≤ ·) lower x ∧ List.Forall₂ (· ≤ ·) x upper

theorem Within.le (h : Within lower upper x) : List.Forall₂ (· ≤ ·) lower upper := by
  obtain ⟨hlower, hupper⟩ := h
  induction hlower generalizing upper with
  | nil =>
      cases hupper
      exact .nil
  | cons hl _ ih =>
      cases hupper with
      | cons hu hupper => exact .cons (hl.trans hu) (ih hupper)

theorem Within.mono {low high : Vec ℝ} (hx : Within lower upper x) (hlower : Within low high lower)
    (hupper : Within low high upper) : Within low high x :=
  ⟨Within.le ⟨hlower.1, hx.1⟩, Within.le ⟨hx.2, hupper.2⟩⟩

theorem within_cons_iff :
    Within (l :: lower) (u :: upper) x ↔
      ∃ a y, x = a :: y ∧ a ∈ Set.Icc l u ∧ Within lower upper y := by
  constructor
  · rintro ⟨hlower, hupper⟩
    cases hlower with
    | cons hl hlower =>
        cases hupper with
        | cons hu hupper => exact ⟨_, _, rfl, ⟨hl, hu⟩, hlower, hupper⟩
  · rintro ⟨a, y, rfl, ha, hlower, hupper⟩
    exact ⟨.cons ha.1 hlower, .cons ha.2 hupper⟩

theorem draws_bounceAll {low high : Vec ℝ} (hlower : Within low high lower)
    (hupper : Within low high upper) (hanchor : Within low high anchor)
    (hx : x.length = lower.length) :
    Draws (bounceAll lower upper anchor x : StateM ρ (Vec ℝ)) (Within low high) := by
  induction low generalizing high lower upper anchor x with
  | nil =>
      obtain ⟨⟨⟩, ⟨⟩⟩ := hlower
      rw [List.eq_nil_of_length_eq_zero hx, bounceAll.eq_def]
      exact draws_pure ⟨.nil, .nil⟩
  | cons l₀ low ih =>
      obtain ⟨u₀, high, rfl⟩ := List.exists_cons_of_length_eq_add_one hlower.le.length_eq.symm
      obtain ⟨l, lower, rfl, hl, hlower⟩ := within_cons_iff.mp hlower
      obtain ⟨u, upper, rfl, hu, hupper⟩ := within_cons_iff.mp hupper
      obtain ⟨m, anchor, rfl, hm, hanchor⟩ := within_cons_iff.mp hanchor
      obtain ⟨a, x, rfl⟩ := List.exists_cons_of_length_eq_add_one hx
      rw [bounceAll]
      refine (draws_bounce hl hu hm a).bind fun b hb => ?_
      refine (ih hlower hupper hanchor (Nat.succ.inj hx)).bind fun y hy => draws_pure ?_
      exact within_cons_iff.mpr ⟨b, y, rfl, hb, hy⟩

theorem within_of_zip {y : Vec ℝ} (hlength : lower.length = upper.length)
    (h : List.Forall₂ (fun (b : ℝ × ℝ) a => b.1 ≤ a ∧ a ≤ b.2) (lower.zip upper) y) :
    Within lower upper y := by
  induction lower generalizing upper y with
  | nil =>
      rw [List.eq_nil_of_length_eq_zero hlength.symm] at h ⊢
      cases h
      exact ⟨.nil, .nil⟩
  | cons l lower ih =>
      obtain ⟨u, upper, rfl⟩ := List.exists_cons_of_length_eq_add_one hlength.symm
      cases h with
      | cons ha hrest =>
          obtain ⟨hlower, hupper⟩ := ih (Nat.succ.inj hlength) hrest
          exact ⟨.cons ha.1 hlower, .cons ha.2 hupper⟩

theorem draws_randomPoint {box : Setup ℝ} (hbox : List.Forall₂ (· ≤ ·) box.lower box.upper) :
    Draws (randomPoint box : StateM ρ (Vec ℝ)) (Within box.lower box.upper) := by
  refine Draws.mono (draws_mapM fun (l, u) hlu => ?_) fun y => within_of_zip hbox.length_eq
  have hle : l ≤ u := List.forall₂_zip hbox hlu
  refine draws_uniform.bind fun t ht => draws_pure ?_
  have hmem : l + t * (u - l) ∈ Set.uIcc l u := mem_uIcc_of_fraction ht
  rw [Set.uIcc_of_le hle, mul_comm] at hmem
  exact hmem

/-! ## Runs -/

omit [RandomSource ρ] in
theorem setup_real {region : Region ℝ} {c : Settings ℝ}
    (hupper : c.upper.elim (region.upper x) .ok = .ok upper)
    (hlower : c.lower.elim (region.lower x) .ok = .ok lower)
    (hu : upper.length = x.length) (hl : lower.length = x.length) :
    setup region c x = .ok ⟨c, lower, upper⟩ := by
  unfold setup
  rw [hupper, hlower]
  have hlengths : ¬ (upper.length ≠ x.length ∨ lower.length ≠ x.length) := by
    rw [hu, hl]
    exact fun h => h.elim (· rfl) (· rfl)
  simp only [bind, Except.bind, if_neg hlengths]
  refine if_pos (List.all_eq_true.mpr fun b hb => ?_)
  obtain ⟨u, -, l, -, rfl⟩ := exists_of_mem_zipWith hb
  rfl

/-- The coordinates of a point lie in the box that a run sets up for itself. -/
def InBox (c : Constraint ℝ) (s : Session σ (Evolution ρ ℝ) ℝ) (x : Vec ℝ) : Prop :=
  ∃ box, setup c.region s.memory.settings s.progress.point = .ok box ∧
    Within box.lower box.upper x

variable {f : Objective σ ℝ} {c : Constraint ℝ} {s : Session σ (Evolution ρ ℝ) ℝ}

omit [RandomSource ρ] in
/-- Feasible points lie in the box, as far as their coordinates do not exceed the largest number. -/
theorem within_of_contains {box : Setup ℝ}
    (hsetup : setup c.region s.memory.settings s.progress.point = .ok box) (hpaired : c.Paired)
    (hupper : s.memory.settings.upper = none) (hlower : s.memory.settings.lower = none)
    (hlength : x.length = s.progress.point.length) (hx : c.contains x = true)
    (hrange : ∀ a ∈ x, |a| ≤ Scalar.largest) : Within box.lower box.upper x := by
  obtain ⟨-, -, -, hupperBound, hlowerBound⟩ := setup_eq_ok hsetup
  rw [hupper] at hupperBound
  rw [hlower] at hlowerBound
  obtain ⟨_, hhigh, habove⟩ := Constraint.exists_upper (le_refl _) hpaired hx hlength
  obtain ⟨_, hlow, hbelow⟩ := Constraint.exists_lower (le_refl _) hpaired hx hlength
  cases hhigh.symm.trans hupperBound
  cases hlow.symm.trans hlowerBound
  constructor
  · refine ((List.forall₂_and_left _ _).mpr ⟨hrange, hbelow⟩).flip.imp ?_
    exact fun l a ⟨ha, hcarries⟩ => hcarries.le (abs_le.mp ha).1 (lt_irrefl a)
  · refine ((List.forall₂_and_left _ _).mpr ⟨hrange, habove⟩).imp ?_
    exact fun a u ⟨ha, hcaps⟩ => hcaps.le (abs_le.mp ha).2 (lt_irrefl a)

theorem governs_inBox (hpaired : c.Paired) (hbounds : s.memory.settings.applyBounds = true)
    (hupper : s.memory.settings.upper = none) (hlower : s.memory.settings.lower = none)
    (hrange : ∀ x ∈ s.memory.settings.initial.getD [s.progress.point], ∀ a ∈ x,
      |a| ≤ Scalar.largest) :
    Governs ⟨f, c.region⟩ s (InBox c s) where
  given hsetup x hx hlength hcontains :=
    ⟨_, hsetup, within_of_contains hsetup hpaired hupper hlower hlength hcontains (hrange x hx)⟩
  admits {box} hsetup := by
    obtain ⟨hsettings, hlowerLength, -⟩ := setup_eq_ok hsetup
    have hwithin {x : Vec ℝ} (hx : InBox c s x) : Within box.lower box.upper x := by
      obtain ⟨box', hsetup', hx⟩ := hx
      rw [hsetup] at hsetup'
      cases hsetup'
      exact hx
    constructor
    · exact fun hx => (hwithin hx).1.length_eq.symm.trans hlowerLength
    · exact fun hx => (draws_randomPoint (hwithin hx).le).mono fun y hy => ⟨box, hsetup, hy⟩
    · intro anchor x hanchor hx
      unfold confine
      rw [hsettings, if_pos hbounds]
      have hbox := (hwithin hanchor).le
      refine (draws_bounceAll ⟨List.forall₂_refl _, hbox⟩ ⟨hbox, List.forall₂_refl _⟩
        (hwithin hanchor) (hx.trans hlowerLength.symm)).mono ?_
      exact fun y hy => ⟨box, hsetup, hy⟩

/-- In exact arithmetic a run with bounds, taken from any constraint, asks for costs in its box
only and returns a point of it, for starts whose coordinates do not exceed the largest number. -/
theorem minimize_within_box {log : σ → List (Vec ℝ)} (logs : f.Logs log) (hpaired : c.Paired)
    (hbounds : s.memory.settings.applyBounds = true) (hupper : s.memory.settings.upper = none)
    (hlower : s.memory.settings.lower = none)
    (hrange : ∀ x ∈ s.memory.settings.initial.getD [s.progress.point], ∀ a ∈ x,
      |a| ≤ Scalar.largest) :
    ∃ requests, log (minimize ⟨f, c.region⟩ s).2.progress.oracle =
        requests ++ log s.progress.oracle ∧
      (∀ x ∈ requests, InBox c s x) ∧
      ∀ o s', minimize ⟨f, c.region⟩ s = (.ok o, s') → InBox c s s'.progress.point := by
  have governs : Governs ⟨f, c.region⟩ s (InBox c s) :=
    governs_inBox hpaired hbounds hupper hlower hrange
  have hruns := leads_minimize_governed (logs.tracks _) governs
  obtain ⟨requests, hlog, hrequests⟩ := (hruns.mono (fun _ _ h => h.1) fun _ _ h => h).final
  exact ⟨requests, hlog, hrequests, fun o s' hrun => (hruns.of_ok hrun).2⟩

/-! ## A run on an interval -/

noncomputable def bowl : Cost ℝ where
  value x := .ok (Vec.dot x x)
  values := none
  gradient := none
  jacobian := none
  step := Objective.usualStep

noncomputable def upToHalf : Constraint ℝ :=
  .composite .positive
    (.projected (.nonhomogeneous [-1, 0] [0.5, 3]) ⟨[0, 3], [false, true], rfl, by decide⟩)

noncomputable def twoMembers : Session (List (Evaluation ℝ)) (Evolution Generator ℝ) ℝ where
  progress := .start [] [1 / 4]
  rule := ⟨3, 2, 1e-8, 1e-8, 1e-8, .running, 0, Nat.one_lt_two, StoppingRule.two_le_three⟩
  memory := { settings := { Settings.usual with members := 2 }, source := .counter 0 }

theorem one_le_largest : (1 : ℝ) ≤ Scalar.largest := by
  refine Nat.one_le_cast.mpr (Nat.sub_pos_of_lt ?_)
  gcongr
  · exact one_lt_two
  · decide

theorem setup_upToHalf :
    setup upToHalf.region twoMembers.memory.settings [1 / 4] =
      .ok ⟨twoMembers.memory.settings, [0], [1 / 2]⟩ := by
  have hlargest : (1 / 2 : ℝ) ≤ Scalar.largest := by linarith [one_le_largest]
  have hhalf : (0.5 : ℝ) = 1 / 2 := by norm_num
  have hupper : upToHalf.upper [1 / 4] = .ok [Min.min Scalar.largest (1 / 2)] := by
    rw [← Scalar.min_real, ← hhalf]
    rfl
  have hlower : upToHalf.lower [1 / 4] = .ok [Max.max 0 (-1)] := by
    rw [← Scalar.max_real]
    rfl
  rw [min_eq_right hlargest] at hupper
  rw [max_eq_left (by norm_num)] at hlower
  exact setup_real hupper hlower rfl rfl

theorem minimize_within_box_upToHalf :
    ∃ o s', minimize ⟨bowl.objective, upToHalf.region⟩ twoMembers = (.ok o, s') ∧
      (∀ x ∈ s'.progress.oracle.map Cost.point, Within [0] [1 / 2] x) ∧
      Within [0] [1 / 2] s'.progress.point := by
  have hcost (e : Failure ℝ) : ¬ Breaks ⟨bowl.objective, upToHalf.region⟩ e := by
    rintro ⟨-, x, o, herror⟩
    cases herror
  have hrange : ∀ x ∈ twoMembers.memory.settings.initial.getD [twoMembers.progress.point],
      ∀ a ∈ x, |a| ≤ Scalar.largest := by
    intro x hx a ha
    obtain rfl := List.mem_singleton.mp hx
    obtain rfl := List.mem_singleton.mp ha
    rw [abs_of_nonneg (by norm_num)]
    linarith [one_le_largest]
  have hbox (x : Vec ℝ) (hx : InBox upToHalf twoMembers x) : Within [0] [1 / 2] x := by
    obtain ⟨box, hsetup, hwithin⟩ := hx
    rw [show twoMembers.progress.point = [1 / 4] from rfl, setup_upToHalf] at hsetup
    cases hsetup
    exact hwithin
  have hcontains : upToHalf.contains [1 / 4] = true := by
    have hpositive : Constraint.positive.contains [(1 / 4 : ℝ)] = true := by
      norm_num [Constraint.contains]
    have hfull : (Constraint.nonhomogeneous [-1, 0] [0.5, 3]).contains [(1 / 4 : ℝ), 3] = true := by
      norm_num [Constraint.contains, Constraint.between]
    exact Bool.and_eq_true_iff.mpr ⟨hpositive, hfull⟩
  obtain ⟨o, s', hrun⟩ := minimize_eq_ok (List.cons_ne_nil _ _)
    setup_upToHalf rfl hcontains hcost
  obtain ⟨requests, hlog, hrequests, hpoint⟩ :=
    minimize_within_box (c := upToHalf) (Cost.objective_logs bowl) ⟨trivial, rfl⟩ rfl rfl rfl
      hrange
  rw [hrun, twoMembers, Progress.start, List.map_nil, List.append_nil] at hlog
  exact ⟨o, s', hrun, fun x hx => hbox x (hrequests x (hlog ▸ hx)), hbox _ (hpoint o s' hrun)⟩

end Minima.Evolution
