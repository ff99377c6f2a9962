import Minima.Proofs.Constraint

/-!
# Points between the bounds of a constraint

The bounds of a constraint leave out only what is open about it.  A point whose coordinates lie
between the bounds is feasible, unless a coordinate is zero that has to be positive.
-/

namespace Minima

/-! ## All coordinates from the free ones -/

namespace Projection

variable {α : Type}

theorem map_fill {β : Type} (f : α → β) (values : List α) (mask : List Bool) (y : List α) :
    (fill values mask y).map f = fill (values.map f) mask (y.map f) := by
  induction mask generalizing values y with
  | nil => cases values <;> rfl
  | cons fixed mask ih =>
      cases values with
      | nil => rfl
      | cons v values =>
          cases fixed with
          | true => exact congrArg (f v :: ·) (ih values y)
          | false =>
              cases y with
              | nil => rfl
              | cons a y => exact congrArg (f a :: ·) (ih values y)

theorem forall₂_fill {β : Type} {R : β → α → Prop} {values : List β} {mask : List Bool}
    {y : List β} {a : List α} (hfixed : ∀ v ∈ values, ∀ b, R v b)
    (hvalues : values.length = mask.length) (ha : a.length = mask.length)
    (h : List.Forall₂ R y (select mask a)) : List.Forall₂ R (fill values mask y) a := by
  induction mask generalizing values y a with
  | nil =>
      rw [List.eq_nil_of_length_eq_zero hvalues, List.eq_nil_of_length_eq_zero ha]
      exact .nil
  | cons fixed mask ih =>
      obtain ⟨v, values, rfl⟩ := List.exists_cons_of_length_eq_add_one hvalues
      obtain ⟨b, a, rfl⟩ := List.exists_cons_of_length_eq_add_one ha
      obtain ⟨hv, hrest⟩ := List.forall_mem_cons.mp hfixed
      cases fixed with
      | true => exact .cons (hv b) (ih hrest (Nat.succ.inj hvalues) (Nat.succ.inj ha) h)
      | false =>
          cases h with
          | cons hfree h =>
              exact .cons hfree (ih hrest (Nat.succ.inj hvalues) (Nat.succ.inj ha) h)

/-- Pairs of coordinates in the full space, with each fixed coordinate paired with itself. -/
def fillPairs (projection : Projection α) (p : List (α × α)) : List (α × α) :=
  fill (projection.values.map fun v => (v, v)) projection.mask p

theorem map_fillPairs (projection : Projection α) (p : List (α × α)) {f : α × α → α}
    (hf : ∀ v, f (v, v) = v) :
    (projection.fillPairs p).map f = fill projection.values projection.mask (p.map f) := by
  rw [fillPairs, map_fill, List.map_map]
  simp [Function.comp_def, hf]

theorem extend_map {projection : Projection α} {p : List (α × α)} {f : α × α → α}
    (hf : ∀ v, f (v, v) = v) (h : p.length = projection.free) :
    projection.extend (p.map f) = .ok ((projection.fillPairs p).map f) := by
  rw [map_fillPairs projection p hf]
  exact extend_eq_ok ((List.length_map f).trans h)

theorem length_fillPairs (projection : Projection α) (p : List (α × α)) :
    (projection.fillPairs p).length = projection.values.length := by
  rw [fillPairs, length_fill, List.length_map]

end Projection

namespace Constraint

open OrderedScalar

section lists

variable {α β : Type} {R : α → α → Prop} {S : β → α → Prop} {join : α → α → α} {p : List β}
  {y b c bound : Vec α}

theorem forall_of_forall₂_replicate {n : Nat} {a : α} (h : List.Forall₂ S p (List.replicate n a)) :
    ∀ q ∈ p, S q a := by
  induction p generalizing n with
  | nil => exact nofun
  | cons q p ih =>
      cases n with
      | zero => cases h
      | succ n =>
          rw [List.replicate_succ] at h
          cases h with
          | cons hq h => exact List.forall_mem_cons.mpr ⟨hq, ih h⟩

theorem forall₂_of_zipWith (hjoin : ∀ q a u v, R a u → R a v → S q (join u v) → S q u ∧ S q v)
    (hb : List.Forall₂ R y b) (hc : List.Forall₂ R y c)
    (h : List.Forall₂ S p (List.zipWith join b c)) : List.Forall₂ S p b ∧ List.Forall₂ S p c := by
  induction hb generalizing c p with
  | nil =>
      cases hc
      exact ⟨h, h⟩
  | cons hu _ ih =>
      cases hc with
      | cons hv hc =>
          cases h with
          | cons huv h =>
              obtain ⟨hqu, hqv⟩ := hjoin _ _ _ _ hu hv huv
              obtain ⟨hb, hc⟩ := ih hc h
              exact ⟨.cons hqu hb, .cons hqv hc⟩

theorem exists_of_joinBounds {first second : Checked α (Vec α)}
    (hjoin : ∀ q a u v, R a u → R a v → S q (join u v) → S q u ∧ S q v)
    (hfirst : ∃ b, first = .ok b ∧ List.Forall₂ R y b)
    (hsecond : ∃ c, second = .ok c ∧ List.Forall₂ R y c)
    (h : (do joinBounds join (← first) (← second)) = .ok bound) (hp : List.Forall₂ S p bound) :
    (∃ b, first = .ok b ∧ List.Forall₂ S p b) ∧ ∃ c, second = .ok c ∧ List.Forall₂ S p c := by
  obtain ⟨b, rfl, hb⟩ := hfirst
  obtain ⟨c, rfl, hc⟩ := hsecond
  change joinBounds join b c = .ok bound at h
  rw [joinBounds_eq_ok join (hb.length_eq.symm.trans hc.length_eq)] at h
  cases h
  obtain ⟨hpb, hpc⟩ := forall₂_of_zipWith hjoin hb hc hp
  exact ⟨⟨b, rfl, hpb⟩, c, rfl, hpc⟩

theorem exists_of_projectedBound {inner : Vec α → Checked α (Vec α)} {x : Vec α}
    {projection : Projection α} {fallback : α} {S : α × α → α → Prop} {p : List (α × α)}
    (hS : ∀ v a, S (v, v) a) (hx : x.length = projection.free)
    (hy : y.length = projection.mask.length)
    (hinner : ∃ b, inner (Projection.fill projection.values projection.mask x) = .ok b ∧
      List.Forall₂ R y b)
    (h : projectedBound inner projection fallback x = .ok bound) (hp : List.Forall₂ S p bound) :
    ∃ b, inner (Projection.fill projection.values projection.mask x) = .ok b ∧
      List.Forall₂ S (projection.fillPairs p) b := by
  obtain ⟨b, hb, hyb⟩ := hinner
  have hmask : b.length = projection.mask.length := hyb.length_eq.symm.trans hy
  rw [projectedBound_eq_ok fallback hx hb hmask] at h
  cases h
  refine ⟨b, hb, Projection.forall₂_fill (fun v hv a => ?_) ?_ hmask hp⟩
  · obtain ⟨w, -, rfl⟩ := List.mem_map.mp hv
    exact hS w a
  · rw [List.length_map, projection.length_eq]

end lists

/-! ## Mixtures -/

variable {α : Type} [Scalar α] {c : Constraint α} {x low high bound : Vec α} {a b l u : α}

/-- Whether a coordinate is zero that has to be positive. -/
def touches : Constraint α → Vec α → Bool
  | positive, x => x.any Scalar.isZero
  | composite first second, x => first.touches x || second.touches x
  | projected inner p, x =>
      match p.extend x with
      | .ok full => inner.touches full
      | .error _ => false
  | _, _ => false

/-- The first of two numbers is the second, or not below a bound. -/
def FromAbove (q : α × α) (l : α) : Prop := q.1 = q.2 ∨ l ≤ q.1

def FromBelow (q : α × α) (u : α) : Prop := q.1 = q.2 ∨ q.1 ≤ u

theorem between_of_forall₂ {p : List (α × α)} (hbelow : List.Forall₂ FromAbove p low)
    (habove : List.Forall₂ FromBelow p high) (h : between low high (p.map (·.2)) = true) :
    between low high (p.map (·.1)) = true := by
  induction hbelow generalizing high with
  | nil => rfl
  | @cons q l p low hl _ ih =>
      cases habove with
      | @cons _ u _ high hu habove =>
          obtain ⟨q, y⟩ := q
          simp only [List.map_cons, between, Bool.and_eq_true, decide_eq_true_eq] at h ⊢
          obtain ⟨⟨hly, hyu⟩, hrest⟩ := h
          refine ⟨⟨?_, ?_⟩, ih habove hrest⟩
          · exact hl.elim (fun heq : q = y => heq ▸ hly) id
          · exact hu.elim (fun heq : q = y => heq ▸ hyu) id

variable [OrderedScalar α]

theorem FromBelow.of_min {q : α × α} (hb : b ≤ b) (hu : u ≤ u)
    (h : FromBelow q (Scalar.min b u)) : FromBelow q b ∧ FromBelow q u := by
  rcases h with heq | hle
  · exact ⟨.inl heq, .inl heq⟩
  unfold Scalar.min at hle
  rw [if_neg (by simpa [Scalar.isUndefined] using hb)] at hle
  split at hle
  · rename_i hub
    exact ⟨.inr (le_trans hle hub), .inr hle⟩
  · rename_i hub
    exact ⟨.inr hle, .inr (le_trans hle ((le_total hb hu).resolve_right hub))⟩

theorem FromAbove.of_max {q : α × α} (hb : b ≤ b) (hl : l ≤ l)
    (h : FromAbove q (Scalar.max b l)) : FromAbove q b ∧ FromAbove q l := by
  rcases h with heq | hle
  · exact ⟨.inl heq, .inl heq⟩
  unfold Scalar.max at hle
  rw [if_neg (by simpa [Scalar.isUndefined] using hb)] at hle
  split at hle
  · rename_i hbl
    exact ⟨.inr (le_trans hbl hle), .inr hle⟩
  · rename_i hbl
    exact ⟨.inr hle, .inr (le_trans ((le_total hb hl).resolve_left hbl) hle)⟩

/-- A mixture of a feasible point with numbers between the bounds of its constraint is feasible
unless it touches zero. -/
theorem contains_mixture (hlargest : (Scalar.largest : α) ≤ Scalar.largest)
    (hleast : (-Scalar.largest : α) ≤ -Scalar.largest) {p : List (α × α)} (hc : c.Paired)
    (hy : c.contains (p.map (·.2)) = true) (hlength : p.length = x.length)
    (hlow : c.lower x = .ok low) (hhigh : c.upper x = .ok high)
    (hbelow : List.Forall₂ FromAbove p low) (habove : List.Forall₂ FromBelow p high)
    (htouch : c.touches (p.map (·.1)) = false) : c.contains (p.map (·.1)) = true := by
  have hlength' : (p.map (·.2)).length = x.length := (List.length_map _).trans hlength
  induction c generalizing x p low high with
  | none => rfl
  | positive =>
      cases hlow
      refine List.all_eq_true.mpr fun a ha => decide_eq_true ?_
      have hne : ¬ Scalar.isZero a = true := List.any_eq_false.mp htouch a ha
      obtain ⟨q, hq, rfl⟩ := List.mem_map.mp ha
      rcases forall_of_forall₂_replicate hbelow q hq with heq | hle
      · rw [heq]
        exact of_decide_eq_true (List.all_eq_true.mp hy _ (List.mem_map_of_mem hq))
      · refine lt_iff_le_not_ge.mpr ⟨hle, fun hge => hne ?_⟩
        exact Bool.and_eq_true_iff.mpr ⟨decide_eq_true hge, decide_eq_true hle⟩
  | boundary l u =>
      cases hlow
      cases hhigh
      refine List.all_eq_true.mpr fun a ha => ?_
      obtain ⟨q, hq, rfl⟩ := List.mem_map.mp ha
      have hgiven := List.all_eq_true.mp hy _ (List.mem_map_of_mem hq)
      rcases forall_of_forall₂_replicate hbelow q hq with heq | hle
      · rwa [heq]
      rcases forall_of_forall₂_replicate habove q hq with heq | hle'
      · rwa [heq]
      · exact Bool.and_eq_true_iff.mpr ⟨decide_eq_true hle, decide_eq_true hle'⟩
  | nonhomogeneous l u =>
      cases hlow
      cases hhigh
      rw [contains, Bool.and_eq_true, beq_iff_eq] at hy ⊢
      refine ⟨?_, between_of_forall₂ hbelow habove hy.2⟩
      rw [List.length_map, hbelow.length_eq]
  | composite first second hfirst hsecond =>
      rw [contains, Bool.and_eq_true] at hy ⊢
      obtain ⟨htouch₁, htouch₂⟩ := Bool.or_eq_false_iff.mp htouch
      obtain ⟨⟨l₁, hl₁, hbelow₁⟩, l₂, hl₂, hbelow₂⟩ := exists_of_joinBounds
        (fun _ _ _ _ hl hl' => FromAbove.of_max hl.defined hl'.defined)
        (exists_lower hleast hc.1 hy.1 hlength') (exists_lower hleast hc.2 hy.2 hlength') hlow
        hbelow
      obtain ⟨⟨u₁, hu₁, habove₁⟩, u₂, hu₂, habove₂⟩ := exists_of_joinBounds
        (fun _ _ _ _ hu hu' => FromBelow.of_min hu.defined hu'.defined)
        (exists_upper hlargest hc.1 hy.1 hlength') (exists_upper hlargest hc.2 hy.2 hlength') hhigh
        habove
      exact ⟨hfirst hc.1 hy.1 hlength hl₁ hu₁ hbelow₁ habove₁ htouch₁ hlength',
        hsecond hc.2 hy.2 hlength hl₂ hu₂ hbelow₂ habove₂ htouch₂ hlength'⟩
  | projected inner projection ih =>
      have hp : p.length = projection.free := by
        rw [contains] at hy
        split at hy
        · rename_i hextend
          exact (List.length_map _).symm.trans (Projection.eq_fill_of_extend hextend).1
        · contradiction
      rw [contains, Projection.extend_map (fun _ => rfl) hp] at hy ⊢
      rw [touches, Projection.extend_map (fun _ => rfl) hp] at htouch
      have hx : x.length = projection.free := hlength.symm.trans hp
      have hpairs := projection.length_fillPairs p
      have hfull : (projection.fillPairs p).length =
          (Projection.fill projection.values projection.mask x).length := by
        rw [hpairs, Projection.length_fill]
      have hfull' := (List.length_map (·.2)).trans hfull
      have hmask := ((List.length_map (·.2)).trans hpairs).trans projection.length_eq
      obtain ⟨l, hl, hbelow'⟩ := exists_of_projectedBound (fun _ _ => .inl rfl) hx hmask
        (exists_lower (c := inner) hleast hc hy hfull') hlow hbelow
      obtain ⟨u, hu, habove'⟩ := exists_of_projectedBound (fun _ _ => .inl rfl) hx hmask
        (exists_upper (c := inner) hlargest hc hy hfull') hhigh habove
      exact ih hc hy hfull hl hu hbelow' habove' htouch hfull'

/-- Between the bounds around a feasible point there are only feasible points, and those that touch
zero. -/
theorem contains_of_within (hlargest : (Scalar.largest : α) ≤ Scalar.largest)
    (hleast : (-Scalar.largest : α) ≤ -Scalar.largest) {y z : Vec α} (hc : c.Paired)
    (hy : c.contains y = true) (hlength : y.length = x.length) (hlow : c.lower x = .ok low)
    (hhigh : c.upper x = .ok high) (hbelow : List.Forall₂ (· ≤ ·) low z)
    (habove : List.Forall₂ (· ≤ ·) z high) (htouch : c.touches z = false) :
    c.contains z = true := by
  obtain ⟨low', hlow', hcarries⟩ := exists_lower hleast hc hy hlength
  cases hlow'.symm.trans hlow
  have hz : z.length = y.length := hbelow.length_eq.symm.trans hcarries.length_eq.symm
  have hfst : (z.zip y).map (·.1) = z := List.map_fst_zip (Nat.le_of_eq hz)
  have hsnd : (z.zip y).map (·.2) = y := List.map_snd_zip (Nat.le_of_eq hz.symm)
  have hmixture := contains_mixture (p := z.zip y) hlargest hleast hc (hsnd.symm ▸ hy)
    ((List.length_zip.trans (by rw [hz, Nat.min_self])).trans hlength) hlow hhigh ?_ ?_
    (hfst.symm ▸ htouch)
  · rwa [hfst] at hmixture
  · rw [← hfst, List.forall₂_map_right_iff] at hbelow
    exact hbelow.flip.imp fun q l => .inr
  · rw [← hfst, List.forall₂_map_left_iff] at habove
    exact habove.imp fun q u => .inr

end Constraint

end Minima
