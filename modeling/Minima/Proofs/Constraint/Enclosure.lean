import Minima.Proofs.Constraint
import Minima.Proofs.Double.Parts

/-!
# Constraints and their bounds

The bounds around a feasible point with finite coordinates enclose it.  A constraint that is made of
intervals alone is no more than its bounds: what lies between them is feasible.
-/

namespace Minima

/-! ## Bounds that are joined -/

section join

open OrderedScalar

variable {α : Type} [Scalar α] [OrderedScalar α] {a b c : α}

theorem Scalar.max_le_iff (hb : b ≤ b) (hc : c ≤ c) : Scalar.max b c ≤ a ↔ b ≤ a ∧ c ≤ a := by
  have hdefined : Scalar.isUndefined b = false := by simpa [Scalar.isUndefined] using hb
  rw [Scalar.max, if_neg (by rw [hdefined]; exact Bool.false_ne_true)]
  split
  · rename_i hbc
    exact ⟨fun hca => ⟨le_trans hbc hca, hca⟩, And.right⟩
  · rename_i hbc
    have hcb : c ≤ b := (le_total hb hc).resolve_left hbc
    exact ⟨fun hba => ⟨hba, le_trans hcb hba⟩, And.left⟩

theorem Scalar.le_min_iff (hb : b ≤ b) (hc : c ≤ c) : a ≤ Scalar.min b c ↔ a ≤ b ∧ a ≤ c := by
  have hdefined : Scalar.isUndefined b = false := by simpa [Scalar.isUndefined] using hb
  rw [Scalar.min, if_neg (by rw [hdefined]; exact Bool.false_ne_true)]
  split
  · rename_i hcb
    exact ⟨fun hac => ⟨le_trans hac hcb, hac⟩, And.right⟩
  · rename_i hcb
    have hbc : b ≤ c := (le_total hb hc).resolve_right hcb
    exact ⟨fun hab => ⟨hab, le_trans hab hbc⟩, And.left⟩

end join

namespace Constraint

section lists

variable {α : Type} {R D : α → α → Prop} {join : α → α → α} {y b c : Vec α}

theorem forall₂_zipWith_iff (hjoin : ∀ a u v, D a u → D a v → (R a (join u v) ↔ R a u ∧ R a v))
    (hb : List.Forall₂ D y b) (hc : List.Forall₂ D y c) :
    List.Forall₂ R y (List.zipWith join b c) ↔ List.Forall₂ R y b ∧ List.Forall₂ R y c := by
  induction hb generalizing c with
  | nil =>
      cases hc
      simp
  | cons hu _ ih =>
      cases hc with
      | cons hv hc =>
          simp only [List.zipWith_cons_cons, List.forall₂_cons, hjoin _ _ _ hu hv, ih hc]
          tauto

theorem forall₂_replicate_iff {u : α} :
    List.Forall₂ R y (List.replicate y.length u) ↔ ∀ a ∈ y, R a u := by
  induction y with
  | nil => simp
  | cons a y ih => rw [List.length_cons, List.replicate_succ, List.forall₂_cons, ih,
      List.forall_mem_cons]

end lists

variable {α : Type} [Scalar α] {c : Constraint α} {x low high : Vec α}

def Surrounds (low high x : Vec α) : Prop :=
  List.Forall₂ (fun a l => l ≤ a) x low ∧ List.Forall₂ (fun a u => a ≤ u) x high

structure BoundsAt (c : Constraint α) (x low high : Vec α) : Prop where
  lower_eq : c.lower x = .ok low
  upper_eq : c.upper x = .ok high
  length_low : low.length = x.length
  length_high : high.length = x.length

/-- Made of intervals alone, for all coordinates or for each of `n`, and with defined bounds. -/
def IsBox (n : Nat) : Constraint α → Prop
  | none => True
  | boundary low high => low ≤ low ∧ high ≤ high
  | nonhomogeneous low high =>
      low.length = n ∧ high.length = n ∧ (∀ l ∈ low, l ≤ l) ∧ ∀ u ∈ high, u ≤ u
  | composite first second => first.IsBox n ∧ second.IsBox n
  | positive | projected _ _ => False

theorem between_of_surrounds (h : Surrounds low high x) : between low high x = true := by
  obtain ⟨hlow, hhigh⟩ := h
  induction hlow generalizing high with
  | nil => cases high <;> rfl
  | cons hl _ ih =>
      cases hhigh with
      | cons hu hhigh =>
          rw [between, ih hhigh, decide_eq_true hl, decide_eq_true hu]
          rfl

def DefinedAt (_ b : α) : Prop := b ≤ b

theorem forall₂_definedAt {b : Vec α} (hlength : x.length = b.length) (h : ∀ u ∈ b, u ≤ u) :
    List.Forall₂ DefinedAt x b :=
  List.forall₂_iff_zip.mpr ⟨hlength, fun hmem => h _ (List.of_mem_zip hmem).2⟩

theorem DefinedAt.max {a u v : α} (hu : DefinedAt a u) (hv : DefinedAt a v) :
    DefinedAt a (Scalar.max u v) := by
  unfold Scalar.max
  split
  · exact hv
  split
  · exact hv
  · exact hu

theorem DefinedAt.min {a u v : α} (hu : DefinedAt a u) (hv : DefinedAt a v) :
    DefinedAt a (Scalar.min u v) := by
  unfold Scalar.min
  split
  · exact hv
  split
  · exact hv
  · exact hu

variable [OrderedScalar α]

open OrderedScalar

theorem Surrounds.max_min_iff {low' high' : Vec α} (hlow : List.Forall₂ DefinedAt x low)
    (hlow' : List.Forall₂ DefinedAt x low') (hhigh : List.Forall₂ DefinedAt x high)
    (hhigh' : List.Forall₂ DefinedAt x high') :
    Surrounds (List.zipWith Scalar.max low low') (List.zipWith Scalar.min high high') x ↔
      Surrounds low high x ∧ Surrounds low' high' x := by
  rw [Surrounds, forall₂_zipWith_iff (fun _ _ _ => Scalar.max_le_iff) hlow hlow',
    forall₂_zipWith_iff (fun _ _ _ => Scalar.le_min_iff) hhigh hhigh']
  exact and_and_and_comm

theorem IsBox.exists_bounds (hx : ∀ a ∈ x, -Scalar.largest ≤ a ∧ a ≤ Scalar.largest)
    (hc : c.IsBox x.length) :
    ∃ low high, c.lower x = .ok low ∧ c.upper x = .ok high ∧ List.Forall₂ DefinedAt x low ∧
      List.Forall₂ DefinedAt x high ∧ (c.contains x = true ↔ Surrounds low high x) := by
  induction c with
  | none =>
      refine ⟨_, _, rfl, rfl, ?_, ?_, ?_⟩
      · exact forall₂_replicate fun a ha => le_refl_left (hx a ha).1
      · exact forall₂_replicate fun a ha => le_refl_right (hx a ha).2
      · refine iff_of_true rfl ⟨?_, ?_⟩
        · exact forall₂_replicate fun a ha => (hx a ha).1
        · exact forall₂_replicate fun a ha => (hx a ha).2
  | positive => exact hc.elim
  | boundary l u =>
      refine ⟨_, _, rfl, rfl, forall₂_replicate fun _ _ => hc.1,
        forall₂_replicate fun _ _ => hc.2, ?_⟩
      rw [Surrounds, forall₂_replicate_iff, forall₂_replicate_iff, contains, List.all_eq_true]
      simp only [Bool.and_eq_true, decide_eq_true_eq]
      exact forall₂_and
  | nonhomogeneous l u =>
      obtain ⟨hl, hu, hdefined, hdefined'⟩ := hc
      refine ⟨_, _, rfl, rfl, forall₂_definedAt hl.symm hdefined,
        forall₂_definedAt hu.symm hdefined', ?_⟩
      rw [contains, hl, beq_self_eq_true, Bool.true_and]
      exact ⟨forall₂_between hl.symm hu.symm, between_of_surrounds⟩
  | composite first second hfirst hsecond =>
      obtain ⟨l, u, hlower, hupper, hl, hu, hcontains⟩ := hfirst hc.1
      obtain ⟨l', u', hlower', hupper', hl', hu', hcontains'⟩ := hsecond hc.2
      refine ⟨List.zipWith Scalar.max l l', List.zipWith Scalar.min u u', ?_, ?_,
        forall₂_zipWith (fun _ _ _ => DefinedAt.max) hl hl',
        forall₂_zipWith (fun _ _ _ => DefinedAt.min) hu hu', ?_⟩
      · rw [lower, hlower, hlower']
        exact joinBounds_eq_ok _ (hl.length_eq.symm.trans hl'.length_eq)
      · rw [upper, hupper, hupper']
        exact joinBounds_eq_ok _ (hu.length_eq.symm.trans hu'.length_eq)
      · rw [contains, Bool.and_eq_true, hcontains, hcontains', Surrounds.max_min_iff hl hl' hu hu']
  | projected inner projection => exact hc.elim

/-! ## Bounds around finite points -/

theorem le_of_carries {a l : Float} (ha : Scalar.isFinite a = true) (h : Carries a l) : l ≤ a :=
  h.le (Double.abs_le_largest ha).1 (not_lt_self a)

theorem le_of_caps {a u : Float} (ha : Scalar.isFinite a = true) (h : Caps a u) : a ≤ u :=
  h.le (Double.abs_le_largest ha).2 (not_lt_self a)

/-- Around a feasible point with finite coordinates there is a lower and an upper bound for each of
them, and it lies between the two.  Of a box every finite point between the bounds is feasible. -/
theorem bounds_surround {c : Constraint Float} {x : Vec Float} (hc : c.Paired)
    (hfinite : ∀ a ∈ x, Scalar.isFinite a = true) :
    (c.contains x = true → ∃ low high, BoundsAt c x low high ∧ Surrounds low high x) ∧
      (c.IsBox x.length → ∃ low high, BoundsAt c x low high ∧
        (Surrounds low high x → c.contains x = true)) := by
  constructor
  · intro hx
    obtain ⟨low, hlower, hcarries⟩ := exists_lower (by decide +kernel) hc hx rfl
    obtain ⟨high, hupper, hcaps⟩ := exists_upper (by decide +kernel) hc hx rfl
    refine ⟨low, high, ⟨hlower, hupper, hcarries.length_eq.symm, hcaps.length_eq.symm⟩, ?_, ?_⟩
    · have hlow := (List.forall₂_and_left _ _).mpr ⟨hfinite, hcarries⟩
      exact hlow.imp fun _ _ h => le_of_carries h.1 h.2
    · have hhigh := (List.forall₂_and_left _ _).mpr ⟨hfinite, hcaps⟩
      exact hhigh.imp fun _ _ h => le_of_caps h.1 h.2
  · intro hbox
    have hrange : ∀ a ∈ x, -Scalar.largest ≤ a ∧ a ≤ Scalar.largest :=
      fun a ha => Double.abs_le_largest (hfinite a ha)
    obtain ⟨low, high, hlower, hupper, hlow, hhigh, hcontains⟩ := hbox.exists_bounds hrange
    exact ⟨low, high, ⟨hlower, hupper, hlow.length_eq.symm, hhigh.length_eq.symm⟩,
      hcontains.mpr⟩

/-! ## Two nested constraints -/

def slice : Constraint Float :=
  .projected (.composite .positive (.nonhomogeneous [-1, -1] [4, 0.5]))
    ⟨[1, 0], [true, false], rfl, Nat.one_pos⟩

def overlap : Constraint Float :=
  .composite (.boundary (-1) 1) (.composite .none (.nonhomogeneous [0, -2] [2, 0.5]))

theorem lower_overlap : overlap.lower [0.5, 0.25] = .ok [0, -1] := by
  have hjoined : [Scalar.max (-1) (Scalar.max (-Scalar.largest) 0),
      Scalar.max (-1) (Scalar.max (-Scalar.largest) (-2))] = [(0 : Float), -1] := by
    decide +kernel
  exact congrArg Except.ok hjoined

theorem upper_overlap : overlap.upper [0.5, 0.25] = .ok [1, 0.5] := by
  have hjoined : [Scalar.min 1 (Scalar.min Scalar.largest 2),
      Scalar.min 1 (Scalar.min Scalar.largest 0.5)] = [(1 : Float), 0.5] := by
    decide +kernel
  exact congrArg Except.ok hjoined

theorem bounds_surround_slice_overlap :
    (slice.contains [0.25] = true ∧
      ∃ low high, BoundsAt slice [0.25] low high ∧ Surrounds low high [0.25]) ∧
    overlap.IsBox 2 ∧ Surrounds [0, -1] [1, 0.5] [(0.5 : Float), 0.25] ∧
      overlap.contains [0.5, 0.25] = true := by
  have hslice : slice.contains [0.25] = true := by decide +kernel
  have hbox : overlap.IsBox 2 := by
    refine ⟨⟨?_, ?_⟩, trivial, rfl, rfl, ?_, ?_⟩ <;> decide +kernel
  have hsurrounds : Surrounds [0, -1] [1, 0.5] [(0.5 : Float), 0.25] :=
    ⟨.cons (by decide +kernel) (.cons (by decide +kernel) .nil),
      .cons (by decide +kernel) (.cons (by decide +kernel) .nil)⟩
  obtain ⟨low, high, hbounds, hcontains⟩ :=
    (bounds_surround (c := overlap) (x := [0.5, 0.25]) ⟨trivial, trivial, rfl⟩
      (by decide +kernel)).2 hbox
  obtain rfl := Except.ok.inj (hbounds.lower_eq.symm.trans lower_overlap)
  obtain rfl := Except.ok.inj (hbounds.upper_eq.symm.trans upper_overlap)
  refine ⟨⟨hslice, ?_⟩, hbox, hsurrounds, hcontains hsurrounds⟩
  exact (bounds_surround (c := slice) ⟨trivial, rfl⟩ (by decide +kernel)).1 hslice

end Constraint

end Minima
