import Minima.Evolution
import Minima.Proofs.Random

/-!
# Mutants

Whatever is drawn, every strategy makes one mutant for each member, of the dimension of the
members, and anchors it at a member or at the best point.
-/

namespace Minima.Evolution

variable {ρ α β γ δ : Type} [Scalar α] {n : Nat} {old a b c : List (Vec α)} {best x y z : Vec α}

/-! ## Lengths -/

theorem length_add (hx : x.length = n) (hy : y.length = n) : (Vec.add x y).length = n := by
  rw [Vec.add, List.length_zipWith, hx, hy, Nat.min_self]

theorem length_sub (hx : x.length = n) (hy : y.length = n) : (Vec.sub x y).length = n := by
  rw [Vec.sub, List.length_zipWith, hx, hy, Nat.min_self]

theorem length_mul (hx : x.length = n) (hy : y.length = n) : (Vec.mul x y).length = n := by
  rw [Vec.mul, List.length_zipWith, hx, hy, Nat.min_self]

theorem length_scale (s : α) (hx : x.length = n) : (Vec.scale s x).length = n := by
  rw [Vec.scale, List.length_map, hx]

theorem length_step (s : α) (hx : x.length = n) (hy : y.length = n) (hz : z.length = n) :
    (Vec.add z (Vec.scale s (Vec.sub x y))).length = n :=
  length_add hz (length_scale s (length_sub hx hy))

omit [Scalar α] in
theorem exists_of_mem_zipWith {f : β → γ → δ} {l : List β} {l' : List γ} {d : δ}
    (h : d ∈ List.zipWith f l l') : ∃ b ∈ l, ∃ c ∈ l', f b c = d := by
  rw [← List.map_uncurry_zip_eq_zipWith, List.mem_map] at h
  obtain ⟨⟨b, c⟩, hmem, rfl⟩ := h
  obtain ⟨hb, hc⟩ := List.of_mem_zip hmem
  exact ⟨b, hb, c, hc, rfl⟩

omit [Scalar α] in
theorem exists_of_mem_zip3With {f : β → β → β → β} {a b c : List β} {d : β}
    (h : d ∈ zip3With f a b c) : ∃ x ∈ a, ∃ y ∈ b, ∃ z ∈ c, f x y z = d := by
  obtain ⟨g, hg, z, hz, rfl⟩ := exists_of_mem_zipWith h
  obtain ⟨x, hx, y, hy, rfl⟩ := exists_of_mem_zipWith hg
  exact ⟨x, hx, y, hy, z, hz, rfl⟩

omit [Scalar α] in
theorem length_zip3With {f : β → β → β → β} {a b c : List β} {k : Nat} (ha : a.length = k)
    (hb : b.length = k) (hc : c.length = k) : (zip3With f a b c).length = k := by
  rw [zip3With, List.length_zipWith, List.length_zipWith, ha, hb, hc, Nat.min_self, Nat.min_self]

/-! ## What fits a population -/

structure Mutants.Fits (made : Mutants α) (old : List (Vec α)) (best : Vec α) : Prop where
  length_mutants : made.mutants.length = old.length
  length_anchors : made.anchors.length = old.length
  length_mutant : ∀ x ∈ made.mutants, x.length = best.length
  anchor_mem : ∀ x ∈ made.anchors, x ∈ best :: old

omit [Scalar α] in
theorem Mutants.Fits.of_perm {mutants : List (Vec α)} (hanchors : old.Perm a)
    (hlength : mutants.length = old.length) (hmutants : ∀ x ∈ mutants, x.length = best.length) :
    (⟨mutants, a⟩ : Mutants α).Fits old best where
  length_mutants := hlength
  length_anchors := hanchors.length_eq.symm
  length_mutant := hmutants
  anchor_mem _ hx := List.mem_cons_of_mem _ (hanchors.mem_iff.mpr hx)

omit [Scalar α] in
theorem Mutants.Fits.of_three {f : Vec α → Vec α → Vec α → Vec α} {anchors : List (Vec α)}
    (hold : ∀ x ∈ old, x.length = best.length)
    (hf : ∀ x y z, x.length = best.length → y.length = best.length → z.length = best.length →
      (f x y z).length = best.length)
    (hanchors : old.Perm anchors) (ha : old.Perm a) (hb : old.Perm b) (hc : old.Perm c) :
    (⟨zip3With f a b c, anchors⟩ : Mutants α).Fits old best := by
  refine .of_perm hanchors
    (length_zip3With ha.length_eq.symm hb.length_eq.symm hc.length_eq.symm) fun d hd => ?_
  obtain ⟨x, hx, y, hy, z, hz, rfl⟩ := exists_of_mem_zip3With hd
  exact hf x y z (hold x (ha.mem_iff.mpr hx)) (hold y (hb.mem_iff.mpr hy))
    (hold z (hc.mem_iff.mpr hz))

/-! ## Draws -/

variable [RandomSource ρ]

omit [Scalar α] in
theorem draws_shuffled (old : List (Vec α)) :
    Draws (shuffled old : StateM ρ (List (Vec α))) (List.Perm old) := by
  unfold shuffled
  refine (Random.draws_permutation _).bind fun order horder => draws_pure ?_
  have hall : (List.range old.length).map (old.toArray.getD · []) = old := by
    refine List.ext_getElem (by simp) fun i hi hi' => ?_
    simp [hi']
  have hmap := horder.map (old.toArray.getD · [])
  rwa [hall] at hmap

omit [Scalar α] in
theorem draws_shuffledThrice (old : List (Vec α)) :
    Draws (shuffledThrice old : StateM ρ _) fun (a, b, c) =>
      old.Perm a ∧ old.Perm b ∧ old.Perm c := by
  unfold shuffledThrice
  refine (draws_shuffled old).bind fun a ha => ?_
  refine (draws_shuffled old).bind fun b hb => ?_
  exact (draws_shuffled old).bind fun c hc => draws_pure ⟨ha, hb, hc⟩

theorem draws_adaptWeights (weights : Vec α) :
    Draws (adaptWeights weights : StateM ρ (Vec α)) fun adapted =>
      adapted.length = weights.length :=
  (draws_mapM_all fun _ _ => draws_true _).mono fun _ h => h.1

def Fitting (old : List (Vec α)) (best weights : Vec α) (drawn : Mutants α × Vec α) : Prop :=
  drawn.1.Fits old best ∧ drawn.2.length = weights.length

theorem draws_mutate (s : Settings α) {weights : Vec α}
    (hold : ∀ x ∈ old, x.length = best.length) (hweights : weights.length = old.length) :
    Draws (mutate s old best weights : StateM ρ _) (Fitting old best weights) := by
  have hmem {l : List (Vec α)} (hl : old.Perm l) {x : Vec α} (hx : x ∈ l) :
      x.length = best.length :=
    hold x (hl.mem_iff.mpr hx)
  unfold mutate
  dsimp only
  cases s.mutation with
  | rand1Standard =>
      refine (draws_shuffledThrice old).bind fun (a, b, c) ⟨ha, hb, hc⟩ => ?_
      refine draws_pure ⟨.of_three hold (fun x y z hx hy hz => ?_) ha ha hb hc, rfl⟩
      exact length_step _ hx hy hz
  | bestMemberWithJitter =>
      refine (draws_shuffled old).bind fun a ha => ?_
      have hlength : (a.zip old).length = old.length := by
        rw [List.length_zip, ha.length_eq, Nat.min_self]
      refine Draws.bind (draws_mapM_all (Q := (·.length = best.length)) ?_) ?_
      · intro (x, y) hxy
        obtain ⟨hx, hy⟩ := List.of_mem_zip hxy
        refine (draws_mapM_all fun i _ => draws_true _).bind fun ws ⟨hws, _⟩ => ?_
        rw [List.length_range] at hws
        have hdifference := length_sub (hmem ha hx) (hold y hy)
        exact draws_pure (length_add rfl (length_mul hdifference hws))
      · intro mutants ⟨hmutants, hall⟩
        refine draws_pure ⟨⟨hmutants.trans hlength, List.length_map _, hall, fun x hx => ?_⟩, rfl⟩
        obtain ⟨-, -, rfl⟩ := List.mem_map.mp hx
        exact List.mem_cons_self
  | currentToBest2Diffs =>
      refine (draws_shuffled old).bind fun a ha => ?_
      refine (draws_shuffled old).bind fun b hb => draws_pure ?_
      refine ⟨.of_three hold (fun x y z hx hy hz => ?_) ha (.refl _) ha hb, rfl⟩
      exact length_add (length_step _ rfl hx hx) (length_scale _ (length_sub hz hy))
  | rand1DiffWithPerVectorDither =>
      refine (draws_shuffledThrice old).bind fun (a, b, c) ⟨ha, hb, hc⟩ => ?_
      refine (draws_mapM_all fun i _ => draws_true _).bind fun ws ⟨hws, _⟩ => ?_
      rw [List.length_range] at hws
      refine draws_pure ⟨.of_three hold (fun x y z hx hy hz => ?_) ha ha hb hc, rfl⟩
      exact length_add hz (length_mul (length_sub hx hy) hws)
  | rand1DiffWithDither =>
      refine (draws_shuffledThrice old).bind fun (a, b, c) ⟨ha, hb, hc⟩ => ?_
      refine (draws_true _).bind fun w _ => ?_
      refine draws_pure ⟨.of_three hold (fun x y z hx hy hz => ?_) ha ha hb hc, rfl⟩
      exact length_step w hx hy hz
  | eitherOrWithOptimalRecombination =>
      refine (draws_shuffledThrice old).bind fun (a, b, c) ⟨ha, hb, hc⟩ => ?_
      refine (draws_true _).bind fun u _ => draws_ite (fun _ => ?_) fun _ => ?_
      · refine draws_pure ⟨.of_three hold (fun x y z hx hy hz => ?_) ha (.refl _) ha hb, rfl⟩
        exact length_step _ hy hz hx
      · refine draws_pure ⟨.of_perm ha ?_ fun d hd => ?_, rfl⟩
        · rw [List.length_zipWith, length_zip3With ha.length_eq.symm hb.length_eq.symm
            hc.length_eq.symm, Nat.min_self]
        · obtain ⟨x, hx, m, hm, rfl⟩ := exists_of_mem_zipWith hd
          obtain ⟨y, hy, z, hz, w, hw, rfl⟩ := exists_of_mem_zip3With hm
          have hsum := length_add (hmem ha hy) (hmem hb hz)
          have hmove := length_sub hsum (length_scale 2.0 (hmem hc hw))
          exact length_add (hold x hx) (length_scale _ hmove)
  | rand1SelfadaptiveWithRotation =>
      refine (draws_shuffled old).bind fun a ha => ?_
      refine (draws_shuffled old).bind fun b hb => ?_
      refine (draws_adaptWeights weights).bind fun weights' hweights' => ?_
      have hlength : ((a.zip b).zip weights').length = old.length := by
        rw [List.length_zip, List.length_zip, ← ha.length_eq, ← hb.length_eq, hweights', hweights,
          Nat.min_self, Nat.min_self]
      refine Draws.bind (draws_mapM_all (Q := (·.length = best.length)) ?_) ?_
      · intro ((x, y), w) hxyw
        obtain ⟨hxy, -⟩ := List.of_mem_zip hxyw
        obtain ⟨hx, hy⟩ := List.of_mem_zip hxy
        refine (draws_true _).bind fun u _ => draws_ite (fun _ => ?_) fun _ => ?_
        · exact (Random.draws_shuffle best).mono fun turned hturned => hturned.length_eq.symm
        · exact draws_pure
            (length_step w (hmem ha hx) (hmem hb hy) rfl)
      · exact fun mutants ⟨hmutants, hall⟩ =>
          draws_pure ⟨.of_perm ha (hmutants.trans hlength) hall, hweights'⟩

end Minima.Evolution
