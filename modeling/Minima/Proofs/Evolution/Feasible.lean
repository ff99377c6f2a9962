import Minima.Proofs.Constraint.Mixture
import Minima.Proofs.Double.Parts
import Minima.Proofs.Evolution.Runs
import Minima.Proofs.StoppingRule
import Minima.Random.Generator

/-!
# Runs that end in the feasible region

In double precision, too, a coordinate beyond a bound comes back to a place between that bound and
the anchor, as long as nothing overflows.  So the finite coordinates of all members stay between
the bounds of the constraint, and what lies there is feasible.
-/

namespace Minima.Evolution

open OrderedScalar

variable {ρ σ : Type} [RandomSource ρ]

/-! ## Draws of doubles -/

structure Between (b : Float × Float) (a : Float) : Prop where
  lower_le : b.1 ≤ a
  le_upper : a ≤ b.2

/-- A number between two bounds, unless it is not finite. -/
def Stays (b : Float × Float) (a : Float) : Prop := Scalar.isFinite a = true → Between b a

structure Holds (b : Float × Float) (a : Float) : Prop extends Between b a where
  isFinite : Scalar.isFinite a = true

variable {b : Float × Float} {l u m a r : Float} {bounds : List (Float × Float)}
  {lower upper anchor x y : Vec Float}

theorem Between.of_between (ha : Between b a) (hm : Between b m)
    (h : (a ≤ r ∧ r ≤ m) ∨ (m ≤ r ∧ r ≤ a)) : Between b r := by
  rcases h with ⟨har, hrm⟩ | ⟨hmr, hra⟩
  · exact ⟨le_trans ha.lower_le har, le_trans hrm hm.le_upper⟩
  · exact ⟨le_trans hm.lower_le hmr, le_trans hra ha.le_upper⟩

theorem draws_fraction :
    Draws (Random.uniform : StateM ρ Float) fun t => ∃ w, t = Random.fraction w :=
  (draws_true _).bind fun w _ => draws_pure ⟨w, rfl⟩

theorem bounceOff_stays (hl : Holds b l) (hm : Stays b m) (a : Float) (beyond : Bool) :
    Draws (bounceOff l m a beyond : StateM ρ Float) fun r =>
      (beyond = true ∧ Stays b r) ∨ (beyond = false ∧ r = a) := by
  unfold bounceOff
  refine draws_ite (fun hbeyond => ?_) fun hbeyond => ?_
  · refine draws_fraction.bind ?_
    rintro t ⟨w, rfl⟩
    refine draws_pure (.inl ⟨hbeyond, fun hfinite => ?_⟩)
    obtain ⟨hm', hbetween⟩ := Double.add_fraction_between w hl.isFinite hfinite
    exact hl.toBetween.of_between (hm hm') hbetween
  · exact draws_pure (.inr ⟨eq_false_of_ne_true hbeyond, rfl⟩)

theorem bounce_stays (hl : Holds b l) (hu : Holds b u) (hm : Stays b m) (a : Float) :
    Draws (bounce l u m a : StateM ρ Float) (Stays b) := by
  unfold bounce
  refine (bounceOff_stays hu hm a _).bind fun r hr => ?_
  refine (bounceOff_stays hl hm r _).mono fun d hd => ?_
  rcases hd with ⟨-, hd⟩ | ⟨hlow, rfl⟩
  · exact hd
  rcases hr with ⟨-, hr⟩ | ⟨hhigh, rfl⟩
  · exact hr
  -- beyond neither of the bounds
  intro hfinite
  have hd := le_refl_of_isFinite hfinite
  have hbelow := le_of_not_lt (le_refl_left hu.le_upper) hd (of_decide_eq_false hhigh)
  have habove := le_of_not_lt hd (le_refl_left hl.le_upper) (of_decide_eq_false hlow)
  exact ⟨le_trans hl.lower_le habove, le_trans hbelow hu.le_upper⟩

theorem bounceAll_stays (hlower : List.Forall₂ Holds bounds lower)
    (hupper : List.Forall₂ Holds bounds upper) (hanchor : List.Forall₂ Stays bounds anchor)
    (hx : x.length = bounds.length) :
    Draws (bounceAll lower upper anchor x : StateM ρ (Vec Float)) (List.Forall₂ Stays bounds) := by
  induction hlower generalizing upper anchor x with
  | nil =>
      rw [List.eq_nil_of_length_eq_zero hx]
      cases hupper
      exact draws_pure .nil
  | cons hl _ ih =>
      cases hupper with
      | cons hu hupper =>
          cases hanchor with
          | cons hm hanchor =>
              obtain ⟨a, x, rfl⟩ := List.exists_cons_of_length_eq_add_one hx
              rw [bounceAll]
              refine (bounce_stays hl hu hm a).bind fun r hr => ?_
              exact (ih hupper hanchor (Nat.succ.inj hx)).bind fun y hy => draws_pure (.cons hr hy)

omit [RandomSource ρ] in
theorem stays_of_zip (hlower : List.Forall₂ Holds bounds lower)
    (hupper : List.Forall₂ Holds bounds upper)
    (h : List.Forall₂ (fun (p : Float × Float) r => (p.1 ≤ r ∧ r ≤ p.2) ∨ (p.2 ≤ r ∧ r ≤ p.1))
      (lower.zip upper) y) : List.Forall₂ Stays bounds y := by
  induction hlower generalizing upper y with
  | nil =>
      cases h
      exact .nil
  | cons hl _ ih =>
      cases hupper with
      | cons hu hupper =>
          cases h with
          | cons hr h =>
              exact .cons (fun _ => hl.toBetween.of_between hu.toBetween hr) (ih hupper h)

omit [RandomSource ρ] in
theorem forall_isFinite (h : List.Forall₂ Holds bounds x) : ∀ a ∈ x, Scalar.isFinite a = true := by
  induction h with
  | nil => exact nofun
  | cons ha _ ih => exact List.forall_mem_cons.mpr ⟨ha.isFinite, ih⟩

theorem randomPoint_stays {box : Setup Float} (hlower : List.Forall₂ Holds bounds box.lower)
    (hupper : List.Forall₂ Holds bounds box.upper)
    (hspan : ∀ p ∈ box.upper.zip box.lower, Scalar.isFinite (p.1 - p.2) = true) :
    Draws (randomPoint box : StateM ρ (Vec Float)) (List.Forall₂ Stays bounds) := by
  refine Draws.mono (draws_mapM fun (l, u) hlu => ?_) fun y => stays_of_zip hlower hupper
  have hl : Scalar.isFinite l = true := forall_isFinite hlower l (List.of_mem_zip hlu).1
  have hdiff : Scalar.isFinite (u - l) = true := by
    refine hspan (u, l) ?_
    rw [← List.zip_swap]
    exact List.mem_map_of_mem hlu
  refine draws_fraction.bind ?_
  rintro t ⟨w, rfl⟩
  exact draws_pure (Double.add_mul_fraction_between w hl hdiff)

/-! ## The bounds of a constraint -/

section bounds

omit [RandomSource ρ]

variable {c : Constraint Float} {low high start : Vec Float}

theorem largest_le_largest : (Scalar.largest : Float) ≤ Scalar.largest := by decide +kernel

theorem least_le_least : (-Scalar.largest : Float) ≤ -Scalar.largest := by decide +kernel

theorem le_of_carries_of_caps (hl : Scalar.isFinite l = true) (hu : Scalar.isFinite u = true)
    (hcarries : Constraint.Carries a l) (hcaps : Constraint.Caps a u) : l ≤ u := by
  by_cases hlt : a < l
  · -- only an infinite number is below the finite lower bound
    have hleast : ¬ -Scalar.largest ≤ a := fun hle =>
      not_le_of_lt hlt (hcarries.le hle (not_lt_self a))
    have hlow := hcarries.le least_le_least fun hlt => hleast (le_of_lt hlt)
    exact le_trans hlow (Double.abs_le_largest hu).1
  · exact hcaps.le (Double.abs_le_largest hl).2 hlt

theorem forall₂_le_of_carries_of_caps (hcarries : List.Forall₂ Constraint.Carries y low)
    (hcaps : List.Forall₂ Constraint.Caps y high) (hlow : ∀ l ∈ low, Scalar.isFinite l = true)
    (hhigh : ∀ u ∈ high, Scalar.isFinite u = true) : List.Forall₂ (· ≤ ·) low high := by
  induction hcarries generalizing high with
  | nil =>
      cases hcaps
      exact .nil
  | cons hl _ ih =>
      cases hcaps with
      | cons hu hcaps =>
          obtain ⟨hlfinite, hlow⟩ := List.forall_mem_cons.mp hlow
          obtain ⟨hufinite, hhigh⟩ := List.forall_mem_cons.mp hhigh
          exact .cons (le_of_carries_of_caps hlfinite hufinite hl hu) (ih hcaps hlow hhigh)

theorem stays_of_carries_of_caps (hcarries : List.Forall₂ Constraint.Carries y low)
    (hcaps : List.Forall₂ Constraint.Caps y high) : List.Forall₂ Stays (low.zip high) y := by
  induction hcarries generalizing high with
  | nil =>
      cases hcaps
      exact .nil
  | @cons a l y low hl _ ih =>
      cases hcaps with
      | cons hu hcaps =>
          refine .cons (fun hfinite => ?_) (ih hcaps)
          obtain ⟨hleast, hlargest⟩ := Double.abs_le_largest hfinite
          exact ⟨hl.le hleast (not_lt_self a), hu.le hlargest (not_lt_self a)⟩

/-- The numbers lie between the bounds of the constraint. -/
def Encloses (c : Constraint Float) (start x : Vec Float) : Prop :=
  ∀ low high, c.lower start = .ok low → c.upper start = .ok high →
    List.Forall₂ Between (low.zip high) x

theorem forall₂_le_of_between (hlength : low.length = high.length)
    (h : List.Forall₂ Between (low.zip high) x) : List.Forall₂ (· ≤ ·) low high := by
  induction low generalizing high x with
  | nil =>
      rw [List.eq_nil_of_length_eq_zero hlength.symm]
      exact .nil
  | cons l low ih =>
      obtain ⟨u, high, rfl⟩ := List.exists_cons_of_length_eq_add_one hlength.symm
      cases h with
      | cons ha h => exact .cons (le_trans ha.lower_le ha.le_upper) (ih (Nat.succ.inj hlength) h)

theorem between_bounds (h : List.Forall₂ (· ≤ ·) low high) :
    List.Forall₂ Between (low.zip high) low ∧ List.Forall₂ Between (low.zip high) high := by
  induction h with
  | nil => exact ⟨.nil, .nil⟩
  | cons hlu _ ih =>
      exact ⟨.cons ⟨le_refl_left hlu, hlu⟩ ih.1, .cons ⟨hlu, le_refl_right hlu⟩ ih.2⟩

theorem holds_of_between (h : List.Forall₂ Between bounds x)
    (hfinite : ∀ a ∈ x, Scalar.isFinite a = true) : List.Forall₂ Holds bounds x := by
  induction h with
  | nil => exact .nil
  | cons ha _ ih =>
      obtain ⟨hafinite, hfinite⟩ := List.forall_mem_cons.mp hfinite
      exact .cons ⟨ha, hafinite⟩ (ih hfinite)

/-- The bounds of a constraint that has feasible points of this dimension. -/
structure Bounds (c : Constraint Float) (start low high : Vec Float) : Prop where
  lower_eq : c.lower start = .ok low
  upper_eq : c.upper start = .ok high
  feasible : ∃ y, c.contains y = true ∧ y.length = start.length

theorem Bounds.carries_caps (h : Bounds c start low high) (hc : c.Paired) (hy : c.contains y = true)
    (hlength : y.length = start.length) :
    List.Forall₂ Constraint.Carries y low ∧ List.Forall₂ Constraint.Caps y high := by
  obtain ⟨_, hlow, hcarries⟩ := Constraint.exists_lower least_le_least hc hy hlength
  obtain ⟨_, hhigh, hcaps⟩ := Constraint.exists_upper largest_le_largest hc hy hlength
  cases hlow.symm.trans h.lower_eq
  cases hhigh.symm.trans h.upper_eq
  exact ⟨hcarries, hcaps⟩

theorem Bounds.length_zip (h : Bounds c start low high) (hc : c.Paired) :
    (low.zip high).length = start.length := by
  obtain ⟨y, hy, hlength⟩ := h.feasible
  obtain ⟨hcarries, hcaps⟩ := h.carries_caps hc hy hlength
  rw [List.length_zip, ← hcarries.length_eq, ← hcaps.length_eq, Nat.min_self, hlength]

theorem holds_elim {given : Option (Vec Float)} {asked : Checked Float (Vec Float)}
    {own bound : Vec Float} (hasked : asked = .ok own)
    (hbound : given.elim asked .ok = .ok bound)
    (hgiven : ∀ v ∈ given, List.Forall₂ Between bounds v) (hown : List.Forall₂ Between bounds own)
    (hfinite : ∀ a ∈ bound, Scalar.isFinite a = true) : List.Forall₂ Holds bounds bound := by
  cases given with
  | some v =>
      cases hbound
      exact holds_of_between (hgiven _ rfl) hfinite
  | none =>
      cases hasked.symm.trans hbound
      exact holds_of_between hown hfinite

section box

variable {settings : Settings Float} {box : Setup Float}

theorem Bounds.le (h : Bounds c start low high) (hc : c.Paired)
    (hsetup : setup c.region settings start = .ok box)
    (hupper : ∀ u ∈ settings.upper, Encloses c start u)
    (hlower : ∀ l ∈ settings.lower, Encloses c start l) : List.Forall₂ (· ≤ ·) low high := by
  obtain ⟨-, -, -, hupperBound, hlowerBound⟩ := setup_eq_ok hsetup
  obtain ⟨y, hy, hlength⟩ := h.feasible
  obtain ⟨hcarries, hcaps⟩ := h.carries_caps hc hy hlength
  have hsame : low.length = high.length := hcarries.length_eq.symm.trans hcaps.length_eq
  cases hgivenUpper : settings.upper with
  | some u => exact forall₂_le_of_between hsame (hupper u hgivenUpper _ _ h.lower_eq h.upper_eq)
  | none =>
      cases hgivenLower : settings.lower with
      | some l => exact forall₂_le_of_between hsame (hlower l hgivenLower _ _ h.lower_eq h.upper_eq)
      | none =>
          rw [hgivenUpper] at hupperBound
          rw [hgivenLower] at hlowerBound
          cases h.upper_eq.symm.trans hupperBound
          cases h.lower_eq.symm.trans hlowerBound
          obtain ⟨hlowerFinite, hupperFinite⟩ := setup_finite hsetup
          exact forall₂_le_of_carries_of_caps hcarries hcaps hlowerFinite hupperFinite

theorem Bounds.holds_box (h : Bounds c start low high) (hc : c.Paired)
    (hsetup : setup c.region settings start = .ok box)
    (hupper : ∀ u ∈ settings.upper, Encloses c start u)
    (hlower : ∀ l ∈ settings.lower, Encloses c start l) :
    List.Forall₂ Holds (low.zip high) box.lower ∧ List.Forall₂ Holds (low.zip high) box.upper := by
  obtain ⟨hlowerFinite, hupperFinite⟩ := setup_finite hsetup
  obtain ⟨-, -, -, hupperBound, hlowerBound⟩ := setup_eq_ok hsetup
  obtain ⟨hlow, hhigh⟩ := between_bounds (h.le hc hsetup hupper hlower)
  constructor
  · refine holds_elim h.lower_eq hlowerBound (fun l hl => ?_) hlow hlowerFinite
    exact hlower l hl _ _ h.lower_eq h.upper_eq
  · refine holds_elim h.upper_eq hupperBound (fun u hu => ?_) hhigh hupperFinite
    exact hupper u hu _ _ h.lower_eq h.upper_eq

end box

theorem forall₂_le_of_stays (hlength : low.length = high.length)
    (h : List.Forall₂ Stays (low.zip high) x) (hfinite : ∀ a ∈ x, Scalar.isFinite a = true) :
    List.Forall₂ (· ≤ ·) low x ∧ List.Forall₂ (· ≤ ·) x high := by
  induction low generalizing high x with
  | nil =>
      rw [List.eq_nil_of_length_eq_zero hlength.symm] at h ⊢
      cases h
      exact ⟨.nil, .nil⟩
  | cons l low ih =>
      obtain ⟨u, high, rfl⟩ := List.exists_cons_of_length_eq_add_one hlength.symm
      cases h with
      | cons ha h =>
          obtain ⟨hafinite, hfinite⟩ := List.forall_mem_cons.mp hfinite
          obtain ⟨hlower, hupper⟩ := ha hafinite
          obtain ⟨hbelow, habove⟩ := ih (Nat.succ.inj hlength) h hfinite
          exact ⟨.cons hlower hbelow, .cons hupper habove⟩

/-- Between the bounds of the constraint there are only feasible points, and those that touch
zero. -/
theorem Bounds.contains (h : Bounds c start low high) (hc : c.Paired)
    (hx : List.Forall₂ Stays (low.zip high) x) (hfinite : ∀ a ∈ x, Scalar.isFinite a = true)
    (htouch : c.touches x = false) : c.contains x = true := by
  obtain ⟨y, hy, hlength⟩ := h.feasible
  obtain ⟨hcarries, hcaps⟩ := h.carries_caps hc hy hlength
  obtain ⟨hbelow, habove⟩ :=
    forall₂_le_of_stays (hcarries.length_eq.symm.trans hcaps.length_eq) hx hfinite
  exact Constraint.contains_of_within largest_le_largest least_le_least hc hy hlength h.lower_eq
    h.upper_eq hbelow habove htouch

end bounds

/-! ## Runs -/

/-- The finite coordinates are between the bounds of a constraint that has feasible points. -/
def Nearly (c : Constraint Float) (start x : Vec Float) : Prop :=
  ∃ low high, Bounds c start low high ∧ List.Forall₂ Stays (low.zip high) x

variable {f : Objective σ Float} {c : Constraint Float} {s : Session σ (Evolution ρ Float) Float}

theorem governs_nearly (hc : c.Paired) (hbounds : s.memory.settings.applyBounds = true)
    (hupper : ∀ u ∈ s.memory.settings.upper, Encloses c s.progress.point u)
    (hlower : ∀ l ∈ s.memory.settings.lower, Encloses c s.progress.point l) :
    Governs ⟨f, c.region⟩ s (Nearly c s.progress.point) where
  given hsetup x hx hlength hcontains := by
    obtain ⟨low, hlow, hcarries⟩ := Constraint.exists_lower least_le_least hc hcontains hlength
    obtain ⟨high, hhigh, hcaps⟩ := Constraint.exists_upper largest_le_largest hc hcontains hlength
    exact ⟨low, high, ⟨hlow, hhigh, x, hcontains, hlength⟩, stays_of_carries_of_caps hcarries hcaps⟩
  admits {box} hsetup := by
    obtain ⟨hsettings, hlowerLength, -, -, -, hspan⟩ := setup_checks hsetup
    constructor
    · rintro x ⟨low, high, h, hx⟩
      exact hx.length_eq.symm.trans (h.length_zip hc)
    · rintro x ⟨low, high, h, -⟩
      obtain ⟨hbelow, habove⟩ := h.holds_box hc hsetup hupper hlower
      exact (randomPoint_stays hbelow habove fun p hp => (hspan p hp).2.2).mono
        fun y hy => ⟨low, high, h, hy⟩
    · rintro anchor x ⟨low, high, h, hanchor⟩ hx
      obtain ⟨hbelow, habove⟩ := h.holds_box hc hsetup hupper hlower
      unfold confine
      rw [hsettings, if_pos hbounds]
      exact (bounceAll_stays hbelow habove hanchor (hx.trans (h.length_zip hc).symm)).mono
        fun y hy => ⟨low, high, h, hy⟩

/-- A run with bounds ends at a feasible point, if its own bounds, where there are any, lie between
those of the constraint, nothing has overflowed, and no coordinate is zero that has to be
positive. -/
theorem minimize_contains (hc : c.Paired) (hbounds : s.memory.settings.applyBounds = true)
    (hupper : ∀ u ∈ s.memory.settings.upper, Encloses c s.progress.point u)
    (hlower : ∀ l ∈ s.memory.settings.lower, Encloses c s.progress.point l) {o : Outcome}
    {s' : Session σ (Evolution ρ Float) Float} (hrun : minimize ⟨f, c.region⟩ s = (.ok o, s'))
    (hfinite : ∀ a ∈ s'.progress.point, Scalar.isFinite a = true)
    (htouch : c.touches s'.progress.point = false) : c.contains s'.progress.point = true := by
  have hruns := leads_minimize_governed (f.tracks_true s.progress.oracle)
    (governs_nearly hc hbounds hupper hlower)
  obtain ⟨-, low, high, h, hpoint⟩ := hruns.of_ok hrun
  exact h.contains hc hpoint hfinite htouch

/-! ## Runs in one coordinate -/

omit [RandomSource ρ] in
theorem exists_of_eval {β : Type} {r : Checked Float β × Session σ (Evolution ρ Float) Float}
    {t : Vec Float → Bool} (h : (r.1.toBool && t r.2.progress.point) = true) :
    ∃ o s', r = (.ok o, s') ∧ t s'.progress.point = true := by
  obtain ⟨answer, s'⟩ := r
  obtain ⟨hok, htest⟩ := Bool.and_eq_true_iff.mp h
  cases answer with
  | error e => cases hok
  | ok o => exact ⟨o, s', rfl, htest⟩

def costAt (value : Float → Float) : Cost Float where
  value x := .ok (value (x.getD 0 0))
  values := none
  gradient := none
  jacobian := none
  step := Objective.usualStep

def twoMembersFrom (settings : Settings Float) (seed : UInt64) (start : Float) :
    Session (List (Evaluation Float)) (Evolution Generator Float) Float where
  progress := .start [] [start]
  rule := ⟨3, 2, 1e-8, 1e-8, 1e-8, .running, 0, Nat.one_lt_two, StoppingRule.two_le_three⟩
  memory := { settings := { settings with members := 2 }, source := .counter seed }

def positiveUpToHalf : Constraint Float :=
  .composite .positive
    (.projected (.nonhomogeneous [0, -1] [3, 0.5]) ⟨[3, 0], [true, false], rfl, by decide⟩)

theorem encloses_positiveUpToHalf : Encloses positiveUpToHalf [0.25] [0.4] := by
  intro low high hlow hhigh
  cases Except.ok.inj (show Except.ok [Scalar.max 0 (-1)] = Except.ok low from hlow)
  cases Except.ok.inj (show Except.ok [Scalar.min Scalar.largest 0.5] = Except.ok high from hhigh)
  exact .cons ⟨by decide +kernel, by decide +kernel⟩ .nil

theorem minimize_contains_positiveUpToHalf :
    ∃ o s', minimize ⟨(costAt id).objective, positiveUpToHalf.region⟩
        (twoMembersFrom { Settings.usual with upper := some [0.4] } 0 0.25) = (.ok o, s') ∧
      positiveUpToHalf.contains s'.progress.point = true := by
  obtain ⟨o, s', hrun, htest⟩ := exists_of_eval
    (r := minimize ⟨(costAt id).objective, positiveUpToHalf.region⟩
      (twoMembersFrom { Settings.usual with upper := some [0.4] } 0 0.25))
    (t := fun x => x.all (fun a => Scalar.isFinite a) && !positiveUpToHalf.touches x)
    (by decide +kernel)
  obtain ⟨hfinite, htouch⟩ := Bool.and_eq_true_iff.mp htest
  refine ⟨o, s', hrun, ?_⟩
  refine minimize_contains (c := positiveUpToHalf) ⟨trivial, rfl⟩ rfl ?_ ?_ hrun
    (List.all_eq_true.mp hfinite) ((Bool.not_eq_true' _).mp htouch)
  · rintro u ⟨rfl⟩
    exact encloses_positiveUpToHalf
  · intro l hl
    cases hl

def Leaves (cost : Cost Float) (c : Constraint Float)
    (s : Session (List (Evaluation Float)) (Evolution Generator Float) Float) : Prop :=
  s.memory.settings.validate = .ok () ∧ s.memory.settings.applyBounds = true ∧
    ∃ o s', minimize ⟨cost.objective, c.region⟩ s = (.ok o, s') ∧
      c.contains s'.progress.point = false

theorem leaves_of_eval {cost : Cost Float} {c : Constraint Float}
    {s : Session (List (Evaluation Float)) (Evolution Generator Float) Float}
    (hvalid : s.memory.settings.validate.toBool = true)
    (hbounds : s.memory.settings.applyBounds = true)
    (h : ((minimize ⟨cost.objective, c.region⟩ s).1.toBool &&
      !c.contains (minimize ⟨cost.objective, c.region⟩ s).2.progress.point) = true) :
    Leaves cost c s := by
  obtain ⟨o, s', hrun, hcontains⟩ := exists_of_eval (t := fun x => !c.contains x) h
  refine ⟨?_, hbounds, o, s', hrun, (Bool.not_eq_true' _).mp hcontains⟩
  cases hchecked : s.memory.settings.validate with
  | error e =>
      rw [hchecked] at hvalid
      cases hvalid
  | ok checked => rfl

/-- A bound of the run above that of the constraint, a sum that is zero, and a difference of two
infinite terms each lead out of the feasible region. -/
theorem minimize_leaves_region :
    Leaves (costAt fun a => -a) (.boundary 0 1)
      (twoMembersFrom { Settings.usual with upper := some [5] } 0 0.5) ∧
    Leaves (costAt id) .positive
      (twoMembersFrom { Settings.usual with
        mutation := .rand1Standard
        stepWeight := 1
        crossoverProbability := 1
        initial := some [[1], [2]] } 4 1) ∧
    Leaves (costAt fun a => if a < 1e308 then 1 else 0) (.boundary (-8e307) 8e307)
      (twoMembersFrom { Settings.usual with
        mutation := .currentToBest2Diffs
        stepWeight := 2
        crossoverProbability := 1
        initial := some [[8e307], [-8e307]] } 3 0) := by
  refine ⟨?_, ?_, ?_⟩
  · exact leaves_of_eval (by decide +kernel) rfl (by decide +kernel)
  · exact leaves_of_eval (by decide +kernel) rfl (by decide +kernel)
  · exact leaves_of_eval (by decide +kernel) rfl (by decide +kernel)

end Minima.Evolution
