import Mathlib.Algebra.Order.Star.Real
import Mathlib.LinearAlgebra.Matrix.PosDef
import Minima.LeastSquares.TrustRegion
import Minima.Proofs.Exact.Ordered
import Minima.Proofs.Factorization.Undamped

/-!
# The step inside a trust region in exact arithmetic

Every step that is looked at solves the normal equations for its own damping, which is positive.
Of a matrix of full column rank the lower bound on the damping is positive from the start, so that
the search settles for nothing that is shorter than nine tenths of the radius.
-/

namespace Minima

open Matrix

/-! ## Transposed triangles -/

theorem Head.solveTransposed_append {columns : List (Head ℝ)} {rhs : Vec ℝ}
    (h : rhs.length = columns.length) (c : Head ℝ) (b : ℝ) :
    Head.solveTransposed (columns ++ [c]) (rhs ++ [b]) =
      Head.solveTransposed columns rhs ++
        [(b - Vec.dot (Head.solveTransposed columns rhs) c.above) / c.diagonal] := by
  rw [Head.solveTransposed, List.zip_append h.symm, List.foldl_append]
  rfl

theorem Head.eq_zeros_of_solveTransposed {columns : List (Head ℝ)} {rhs : Vec ℝ}
    (hregular : ∀ c ∈ columns, c.diagonal ≠ 0) (hlength : rhs.length = columns.length)
    (h : ∀ a ∈ Head.solveTransposed columns rhs, a = 0) : ∀ b ∈ rhs, b = 0 := by
  induction columns using List.reverseRecOn generalizing rhs with
  | nil =>
      rw [List.length_eq_zero_iff.mp hlength]
      exact nofun
  | append_singleton columns c ih =>
      rcases List.eq_nil_or_concat rhs with rfl | ⟨rhs, b, rfl⟩
      · exact nofun
      have hrhs : rhs.length = columns.length := by simpa using hlength
      rw [List.concat_eq_append] at h ⊢
      rw [Head.solveTransposed_append hrhs, List.forall_mem_append] at h
      obtain ⟨hsolution, hlast⟩ := h
      obtain ⟨hcolumns, hc⟩ := List.forall_mem_append.mp hregular
      rw [List.forall_mem_append]
      refine ⟨ih hcolumns hrhs hsolution, ?_⟩
      have hzeros : Head.solveTransposed columns rhs =
          Vec.zeros (Head.solveTransposed columns rhs).length := List.eq_replicate_of_mem hsolution
      rw [hzeros, Vec.dot_zeros_left, sub_zero] at hlast
      intro a ha
      obtain rfl := List.mem_singleton.mp ha
      have hquotient := hlast _ (List.mem_singleton.mpr rfl)
      exact (div_eq_zero_iff.mp hquotient).resolve_right (hc c (List.mem_singleton.mpr rfl))

theorem Line.eq_zero_of_solveLower {lines : List (Line ℝ × ℝ)} {rhs : Vec ℝ}
    (hregular : ∀ l ∈ lines, l.1.diagonal ≠ 0) (htriangle : IsTriangle lines)
    (hlength : rhs.length = lines.length)
    (h : ∀ a ∈ Line.solveLower (lines.map (·.1)) rhs, a = 0) : ∀ b ∈ rhs, b = 0 := by
  induction lines generalizing rhs with
  | nil =>
      rw [List.length_eq_zero_iff.mp hlength]
      exact nofun
  | cons line lines ih =>
      obtain ⟨l, c⟩ := line
      obtain ⟨b, rhs, rfl⟩ := List.exists_cons_of_length_eq_add_one hlength
      have hrhs : rhs.length = lines.length := Nat.succ.inj hlength
      obtain ⟨hdiagonal, hregular⟩ := List.forall_mem_cons.mp hregular
      rw [List.map_cons, Line.solveLower] at h
      obtain ⟨hquotient, hsolution⟩ := List.forall_mem_cons.mp h
      have hkeeps : Vec.accumulate (-(b / l.diagonal)) l.tail rhs = rhs := by
        rw [hquotient, neg_zero]
        exact Vec.accumulate_zero (htriangle.1.trans hrhs.symm)
      rw [hkeeps] at hsolution
      refine List.forall_mem_cons.mpr ⟨?_, ih hregular htriangle.2 hrhs hsolution⟩
      exact (div_eq_zero_iff.mp hquotient).resolve_right hdiagonal

namespace TrustStep

variable {α : Type} [Scalar α]

/-! ## One pass after the other -/

def divisor (norm : Norm) (factor : Factor α) (scaling scaled : Vec α) (length : α) : α :=
  norm.length (factor.solve (Vec.divide (Vec.mul scaled scaling) length))

theorem correction_eq (norm : Norm) (factor : Factor α) (scaling scaled : Vec α)
    (length excess radius : α) :
    correction norm factor scaling scaled length excess radius =
      excess / radius / divisor norm factor scaling scaled length /
        divisor norm factor scaling scaled length := rfl

def attempt (norm : Norm) (scaling : Vec α) (system : DampedSystem α) (s : Search α) :
    TrustStep α × DampedSystem α :=
  let damping :=
    if Scalar.isZero s.damping then Scalar.max Scalar.smallest (s.upper * 0.001) else s.damping
  let (step, system) := system.solve (Vec.scale (Scalar.sqrt damping) scaling)
  (⟨step, damping, norm.length (Vec.mul step scaling)⟩, system)

/-- The step is near the boundary, or shorter than the radius with nothing to be gained by less
damping. -/
def Settles (radius : α) (s : Search α) (t : TrustStep α) : Prop :=
  Scalar.abs (t.length - radius) ≤ radius * 0.1 ∨
    (Scalar.isZero s.lower ∧ t.length - radius ≤ s.excess ∧ Scalar.isNegative s.excess)

instance (radius : α) (s : Search α) (t : TrustStep α) : Decidable (Settles radius s t) :=
  inferInstanceAs (Decidable (_ ∨ _))

def next (norm : Norm) (scaling : Vec α) (radius : α) (s : Search α)
    (made : TrustStep α × DampedSystem α) : Search α :=
  let (t, system) := made
  let excess := t.length - radius
  let newton := correction norm system.lowerFactor scaling (Vec.mul t.step scaling) t.length
    excess radius
  let tooLong := Scalar.isUndefined radius ∨ 0 < excess
  let lower := if tooLong then Scalar.max s.lower t.damping else s.lower
  let upper := if tooLong then s.upper else Scalar.min s.upper t.damping
  ⟨Scalar.max lower (t.damping + newton), lower, upper, excess⟩

def counted (norm : Norm) (scaling : Vec α) (radius : α) :
    (more : Nat) → DampedSystem α → Search α → Nat × TrustStep α × DampedSystem α
  | 0, system, s => (1, attempt norm scaling system s)
  | more + 1, system, s =>
      let made := attempt norm scaling system s
      if Settles radius s made.1 then (1, made)
      else
        let rest := counted norm scaling radius more made.2 (next norm scaling radius s made)
        (rest.1 + 1, rest.2)

theorem search_succ (norm : Norm) (scaling : Vec α) (radius : α) (more : Nat)
    (system : DampedSystem α) (s : Search α) :
    search norm scaling radius (more + 1) system s =
      if Settles radius s (attempt norm scaling system s).1 then attempt norm scaling system s
      else search norm scaling radius more (attempt norm scaling system s).2
        (next norm scaling radius s (attempt norm scaling system s)) := rfl

theorem counted_snd (norm : Norm) (scaling : Vec α) (radius : α) (more : Nat)
    (system : DampedSystem α) (s : Search α) :
    (counted norm scaling radius more system s).2 = search norm scaling radius more system s := by
  induction more generalizing system s with
  | zero => rfl
  | succ more ih =>
      rw [search_succ, counted]
      dsimp only
      split
      · rfl
      · exact ih _ _

def undamped (norm : Norm) (system : DampedSystem α) (scaling : Vec α) : TrustStep α :=
  ⟨system.solveUndamped, 0, norm.length (Vec.mul system.solveUndamped scaling)⟩

def gradient (norm : Norm) (system : DampedSystem α) (scaling : Vec α) : α :=
  norm.length
    (List.zipWith (· / ·) system.upperFactor.mulRhs (gather system.permutation scaling))

def lowerBound (norm : Norm) (system : DampedSystem α) (scaling : Vec α) (radius : α) : α :=
  let t := undamped norm system scaling
  if system.upperFactor.isNonSingular then
    correction norm system.upperFactor scaling (Vec.mul t.step scaling) t.length
      (t.length - radius) radius
  else 0

def upperBound (norm : Norm) (system : DampedSystem α) (scaling : Vec α) (radius : α) : α :=
  let bound := gradient norm system scaling / radius
  if Scalar.isZero bound then Scalar.smallest / Scalar.min radius 0.1 else bound

def start (norm : Norm) (system : DampedSystem α) (scaling : Vec α) (radius damping : α) :
    Search α :=
  let length := (undamped norm system scaling).length
  let lower := lowerBound norm system scaling radius
  let upper := upperBound norm system scaling radius
  let start := Scalar.min (Scalar.max damping lower) upper
  ⟨if Scalar.isZero start then gradient norm system scaling / length else start, lower, upper,
    length - radius⟩

theorem trustStep_eq (norm : Norm) (system : DampedSystem α) (scaling : Vec α)
    (radius damping : α) :
    trustStep norm system scaling radius damping =
      if (undamped norm system scaling).length - radius ≤ radius * 0.1 then
        (undamped norm system scaling, system)
      else search norm scaling radius 9 system (start norm system scaling radius damping) := rfl

def countedStep (norm : Norm) (system : DampedSystem α) (scaling : Vec α) (radius damping : α) :
    Nat × TrustStep α × DampedSystem α :=
  if (undamped norm system scaling).length - radius ≤ radius * 0.1 then
    (0, undamped norm system scaling, system)
  else counted norm scaling radius 9 system (start norm system scaling radius damping)

theorem countedStep_snd (norm : Norm) (system : DampedSystem α) (scaling : Vec α)
    (radius damping : α) :
    (countedStep norm system scaling radius damping).2 =
      trustStep norm system scaling radius damping := by
  rw [trustStep_eq, countedStep]
  split
  · rfl
  · exact counted_snd _ _ _ _ _ _

end TrustStep

/-! ## Steps that solve the normal equations -/

namespace TrustStep

variable {m n : Nat} {A : Matrix (Fin m) (Fin n) ℝ} {b : Fin m → ℝ} {d p : Fin n → ℝ}
  {radius : ℝ} {s : Search ℝ} {t : TrustStep ℝ} {f : Factorization ℝ} {σ : Equiv.Perm (Fin n)}
  {U : Matrix (Fin m) (Fin m) ℝ}

/-- The step is the point `p`, which solves the normal equations for the damping that goes with
it, and the length is the one of the scaled point. -/
structure Damps (A : Matrix (Fin m) (Fin n) ℝ) (b : Fin m → ℝ) (d : Fin n → ℝ) (t : TrustStep ℝ)
    (p : Fin n → ℝ) : Prop where
  step_eq : t.step = List.ofFn p
  length_eq : t.length = √((d * p) ⬝ᵥ (d * p))
  normal : (Aᵀ * A + t.damping • diagonal d ^ 2) *ᵥ p = Aᵀ *ᵥ b

theorem length_scaled (p d : Fin n → ℝ) :
    Norm.length .plain (Vec.mul (List.ofFn p) (List.ofFn d)) = √((d * p) ⬝ᵥ (d * p)) := by
  rw [Vec.mul_ofFn, mul_comm]
  exact congrArg Real.sqrt (Vec.dot_ofFn _ _)

theorem isUnit_damped (A : Matrix (Fin m) (Fin n) ℝ) (hd : ∀ j, 0 < d j) {damping : ℝ}
    (hdamping : 0 < damping) :
    IsUnit (Aᵀ * A + diagonal (√damping • d) * diagonal (√damping • d)) := by
  have hgram : (Aᵀ * A).PosSemidef := by
    have := posSemidef_conjTranspose_mul_self A
    rwa [conjTranspose_eq_transpose_of_trivial] at this
  have hdiagonal : (diagonal (√damping • d) * diagonal (√damping • d)).PosDef := by
    rw [diagonal_mul_diagonal, posDef_diagonal_iff]
    intro j
    have hj : 0 < √damping * d j := mul_pos (Real.sqrt_pos.mpr hdamping) (hd j)
    exact mul_pos hj hj
  exact (hdiagonal.posSemidef_add hgram).isUnit

theorem diagonal_sqrt_mul_self {damping : ℝ} (h : 0 ≤ damping) (d : Fin n → ℝ) :
    diagonal (√damping • d) * diagonal (√damping • d) = damping • diagonal d ^ 2 := by
  rw [sq, diagonal_mul_diagonal, diagonal_mul_diagonal, ← diagonal_smul]
  congr 1
  funext j
  have := Real.mul_self_sqrt h
  simp only [Pi.smul_apply, smul_eq_mul]
  linear_combination (d j * d j) * this

theorem attempt_damping_pos (norm : Norm) (scaling : Vec ℝ) (system : DampedSystem ℝ)
    (hs : 0 ≤ s.damping) : 0 < (attempt norm scaling system s).1.damping := by
  unfold attempt
  dsimp only
  rw [Scalar.isZero_real]
  split
  · rw [Scalar.max_real]
    exact lt_max_of_lt_left OrderedScalar.zero_lt_smallest
  · rename_i hzero
    exact lt_of_le_of_ne hs (Ne.symm (by simpa using hzero))

theorem attempt_damps (h : Factorization.Factors A f σ U) (hnm : n ≤ m) (b : Fin m → ℝ)
    (hd : ∀ j, 0 < d j) (hs : 0 ≤ s.damping) (lower : List (Line ℝ)) :
    (∃ p, Damps A b d (attempt .plain (List.ofFn d)
        { DampedSystem.ofFactorization f (List.ofFn b) with lower } s).1 p) ∧
      ∃ lines, IsRegular n lines ∧ (attempt .plain (List.ofFn d)
        { DampedSystem.ofFactorization f (List.ofFn b) with lower } s).2 =
          { DampedSystem.ofFactorization f (List.ofFn b) with lower := lines.map (·.1) } := by
  have hpos := attempt_damping_pos .plain (List.ofFn d)
    { DampedSystem.ofFactorization f (List.ofFn b) with lower } hs
  unfold attempt at hpos ⊢
  dsimp only at hpos ⊢
  generalize (if Scalar.isZero s.damping = true then _ else s.damping) = damping at hpos ⊢
  have hunit := isUnit_damped A hd hpos
  obtain ⟨x, hx, hnormal⟩ := h.solve_eq hnm b (√damping • d) hunit lower
  have hlines := h.exists_regular_lower hnm b (√damping • d) hunit lower
  rw [← Vec.scale_ofFn] at hx hlines
  rw [diagonal_sqrt_mul_self hpos.le] at hnormal
  refine ⟨⟨x, hx, ?_, hnormal⟩, hlines⟩
  rw [Scalar.sqrt_real, hx]
  exact length_scaled x d

/-! ## Steps near the boundary -/

/-- The step is at most a tenth too long, and with a lower bound on the damping at most a tenth too
short. -/
structure Fits (radius lower : ℝ) (t : TrustStep ℝ) : Prop where
  length_le : t.length ≤ 1.1 * radius
  le_length : 0 < lower → 0.9 * radius ≤ t.length

theorem Fits.mono {lower' : ℝ} (h : Fits radius lower' t) (hle : s.lower ≤ lower') :
    Fits radius s.lower t :=
  ⟨h.length_le, fun hpos => h.le_length (hpos.trans_le hle)⟩

theorem Settles.fits (h : Settles radius s t) (hradius : 0 < radius) : Fits radius s.lower t := by
  rcases h with hnear | ⟨hlower, hle, hshort⟩
  · rw [Scalar.abs_real, abs_le] at hnear
    exact ⟨by linarith [hnear.2], fun _ => by linarith [hnear.1]⟩
  · rw [Scalar.isZero_real, decide_eq_true_eq] at hlower
    rw [Scalar.isNegative_real, decide_eq_true_eq] at hshort
    exact ⟨by linarith, fun hpos => absurd hlower hpos.ne'⟩

theorem lower_le_next (norm : Norm) (scaling : Vec ℝ) (made : TrustStep ℝ × DampedSystem ℝ) :
    s.lower ≤ (next norm scaling radius s made).lower := by
  unfold next
  dsimp only
  split
  · rw [Scalar.max_real]
    exact le_max_left _ _
  · exact le_rfl

theorem lower_le_damping_next (norm : Norm) (scaling : Vec ℝ)
    (made : TrustStep ℝ × DampedSystem ℝ) :
    (next norm scaling radius s made).lower ≤ (next norm scaling radius s made).damping := by
  unfold next
  dsimp only
  rw [Scalar.max_real _ (_ + _)]
  exact le_max_left _ _

theorem next_nonneg (norm : Norm) (scaling : Vec ℝ) (made : TrustStep ℝ × DampedSystem ℝ)
    (hlower : 0 ≤ s.lower) :
    0 ≤ (next norm scaling radius s made).lower ∧
      0 ≤ (next norm scaling radius s made).damping := by
  have hnext : 0 ≤ (next norm scaling radius s made).lower :=
    hlower.trans (lower_le_next norm scaling made)
  exact ⟨hnext, hnext.trans (lower_le_damping_next norm scaling made)⟩

/-- Whatever the search ends with solves the normal equations, and fits unless the last pass that
was allowed had to be taken. -/
theorem counted_damps (h : Factorization.Factors A f σ U) (hnm : n ≤ m) (b : Fin m → ℝ)
    (hd : ∀ j, 0 < d j) (hradius : 0 < radius) (more : Nat) (lines : List (Line ℝ))
    (hdamping : 0 ≤ s.damping) (hlower : 0 ≤ s.lower) {k : Nat} {system : DampedSystem ℝ}
    (hrun : counted .plain (List.ofFn d) radius more
      { DampedSystem.ofFactorization f (List.ofFn b) with lower := lines } s = (k, t, system)) :
    (∃ p, Damps A b d t p) ∧ 0 < t.damping ∧ k ≤ more + 1 ∧ (k ≤ more → Fits radius s.lower t) := by
  induction more generalizing lines s k with
  | zero =>
      have hpos := attempt_damping_pos .plain (List.ofFn d)
        { DampedSystem.ofFactorization f (List.ofFn b) with lower := lines } hdamping
      obtain ⟨hdamps, -⟩ := attempt_damps h hnm b hd hdamping lines
      rw [counted, Prod.mk.injEq] at hrun
      obtain ⟨rfl, hmade⟩ := hrun
      rw [hmade] at hpos hdamps
      exact ⟨hdamps, hpos, le_rfl, fun hk => absurd hk (by decide)⟩
  | succ more ih =>
      have hpos := attempt_damping_pos .plain (List.ofFn d)
        { DampedSystem.ofFactorization f (List.ofFn b) with lower := lines } hdamping
      obtain ⟨hdamps, lines', -, hsystem⟩ := attempt_damps h hnm b hd hdamping lines
      rw [counted] at hrun
      dsimp only at hrun
      split at hrun
      case isTrue hsettles =>
        obtain ⟨rfl, hmade⟩ := Prod.mk.inj hrun
        rw [hmade] at hpos hdamps hsettles
        exact ⟨hdamps, hpos, Nat.succ_le_succ (Nat.zero_le _), fun _ => hsettles.fits hradius⟩
      case isFalse =>
        rw [hsystem] at hrun
        obtain ⟨rfl, hrest⟩ := Prod.mk.inj hrun
        generalize attempt .plain (List.ofFn d)
          { DampedSystem.ofFactorization f (List.ofFn b) with lower := lines } s = made at hrest ⊢
        have hle : s.lower ≤ (next .plain (List.ofFn d) radius s made).lower :=
          lower_le_next .plain (List.ofFn d) made
        obtain ⟨hlower', hdamping'⟩ := next_nonneg .plain (List.ofFn d) made hlower
        obtain ⟨hdamps, hpos, hcount, hfits⟩ := ih _ hdamping' hlower' (Prod.ext rfl hrest)
        refine ⟨hdamps, hpos, Nat.succ_le_succ hcount, fun hk => ?_⟩
        exact (hfits (Nat.le_of_succ_le_succ hk)).mono hle

/-! ## Where the search starts -/

theorem length_nonneg (v : Vec ℝ) : 0 ≤ Norm.length .plain v := Real.sqrt_nonneg _

theorem correction_nonneg (factor : Factor ℝ) (scaling scaled : Vec ℝ) (length : ℝ) {excess : ℝ}
    (hexcess : 0 ≤ excess) (hradius : 0 < radius) :
    0 ≤ correction .plain factor scaling scaled length excess radius :=
  div_nonneg (div_nonneg (div_nonneg hexcess hradius.le) (length_nonneg _)) (length_nonneg _)

theorem lowerBound_nonneg (system : DampedSystem ℝ) (scaling : Vec ℝ) (hradius : 0 < radius)
    (hlong : radius * 0.1 < (undamped .plain system scaling).length - radius) :
    0 ≤ lowerBound .plain system scaling radius := by
  unfold lowerBound
  dsimp only
  split
  · exact correction_nonneg _ _ _ _ (by linarith) hradius
  · exact le_rfl

theorem upperBound_nonneg (system : DampedSystem ℝ) (scaling : Vec ℝ) (hradius : 0 < radius) :
    0 ≤ upperBound .plain system scaling radius := by
  unfold upperBound
  dsimp only
  split
  · rw [Scalar.min_real]
    exact div_nonneg OrderedScalar.zero_lt_smallest.le (le_min hradius.le (by norm_num))
  · exact div_nonneg (length_nonneg _) hradius.le

theorem start_damping_nonneg (system : DampedSystem ℝ) (scaling : Vec ℝ) {damping : ℝ}
    (hradius : 0 < radius) (hdamping : 0 ≤ damping) :
    0 ≤ (start .plain system scaling radius damping).damping := by
  have hupper := upperBound_nonneg system scaling hradius
  unfold start
  dsimp only
  split
  · exact div_nonneg (length_nonneg _) (length_nonneg _)
  · rw [Scalar.min_real, Scalar.max_real]
    exact le_min (le_max_of_le_left hdamping) hupper

theorem divisor_pos (factor : Factor ℝ)
    (hpermutation : factor.permutation = List.ofFn fun j => (σ j : Nat))
    (hfactor : ∀ v : Vec ℝ, v.length = n → (∀ a ∈ factor.triangle.solve v, a = 0) →
      ∀ c ∈ v, c = 0)
    (hd : ∀ j, 0 < d j) (hp : 0 < √((d * p) ⬝ᵥ (d * p))) :
    0 < divisor .plain factor (List.ofFn d) (Vec.mul (List.ofFn p) (List.ofFn d))
      √((d * p) ⬝ᵥ (d * p)) := by
  refine lt_of_le_of_ne (length_nonneg _) fun hzero => ?_
  unfold divisor at hzero
  rw [Vec.mul_ofFn, Vec.mul_ofFn, Vec.divide_ofFn, Factor.solve, hpermutation, gather_ofFn] at hzero
  have hsolution := Vec.norm_eq_zero_iff.mp hzero.symm
  have hzeros := hfactor _ (List.length_ofFn) fun a ha =>
    List.eq_of_mem_replicate (hsolution.subst (motive := fun v => a ∈ v) ha)
  have hscaled : d * p = 0 := by
    funext j
    have hj := hzeros _ (List.mem_ofFn.mpr ⟨σ.symm j, rfl⟩)
    simpa [hp.ne', (hd j).ne'] using hj
  rw [hscaled, dotProduct_zero, Real.sqrt_zero] at hp
  exact lt_irrefl _ hp

theorem lowerBound_pos (h : Factorization.Factors A f σ U) (hnm : n ≤ m)
    (hvanishes : Factorization.Vanishes 0 f.pivots) (hrank : A.rank = n) (b : Fin m → ℝ)
    (hd : ∀ j, 0 < d j) (hradius : 0 < radius)
    (hlong : radius * 0.1 < (undamped .plain
      (DampedSystem.ofFactorization f (List.ofFn b)) (List.ofFn d)).length - radius) :
    0 < lowerBound .plain (DampedSystem.ofFactorization f (List.ofFn b)) (List.ofFn d) radius := by
  have hregular : ∀ c ∈ (DampedSystem.ofFactorization f (List.ofFn b)).upper,
      c.diagonal ≠ 0 := by
    intro c hc
    obtain ⟨p, hp, rfl⟩ := List.mem_map.mp hc
    exact h.diagonal_ne_zero hnm hrank hp
  have hnonsingular :
      (DampedSystem.ofFactorization f (List.ofFn b)).upperFactor.isNonSingular = true := by
    refine List.all_eq_true.mpr fun c hc => ?_
    simpa using hregular c hc
  obtain ⟨x, hx, -⟩ := h.solveUndamped_eq hnm hvanishes b
  unfold lowerBound
  dsimp only
  rw [if_pos hnonsingular]
  rw [undamped, hx, length_scaled] at hlong ⊢
  dsimp only at hlong ⊢
  have hlength : 0 < √((d * x) ⬝ᵥ (d * x)) := by linarith
  have hupper : (DampedSystem.ofFactorization f (List.ofFn b)).upper.length = n := by
    simp [DampedSystem.ofFactorization, h.length_pivots]
  have hpos := divisor_pos (DampedSystem.ofFactorization f (List.ofFn b)).upperFactor h.permutation
    (fun v hv => Head.eq_zeros_of_solveTransposed hregular (hv.trans hupper.symm)) hd hlength
  rw [correction_eq]
  exact div_pos (div_pos (div_pos (by linarith) hradius) hpos) hpos

end TrustStep

/-! ## The trust region step -/

section

variable {m n : Nat}

open TrustStep

/-- The step, the damping and the length that are returned belong together.  They solve the damped
normal equations, or they are a least squares point that is not too long.  There are at most ten
damped solutions, and with fewer of them the step is near the boundary. -/
theorem trustStep_solves (A : Matrix (Fin m) (Fin n) ℝ) (hnm : n ≤ m) (b : Fin m → ℝ)
    {d : Fin n → ℝ} (hd : ∀ j, 0 < d j) {radius damping : ℝ} (hradius : 0 < radius)
    (hdamping : 0 ≤ damping) {system : DampedSystem ℝ}
    (hsystem : system = .ofFactorization (.factor .plain true (.ofMatrix A)) (List.ofFn b)) :
    ∃ (k : Nat) (t : TrustStep ℝ) (rest : DampedSystem ℝ) (p : Fin n → ℝ),
      countedStep .plain system (List.ofFn d) radius damping = (k, t, rest) ∧
      trustStep .plain system (List.ofFn d) radius damping = (t, rest) ∧
      t.step = List.ofFn p ∧ 0 ≤ t.damping ∧ t.length = √((d * p) ⬝ᵥ (d * p)) ∧
      (0 < t.damping → (Aᵀ * A + t.damping • diagonal d ^ 2) *ᵥ p = Aᵀ *ᵥ b) ∧
      (t.damping = 0 →
        (∀ q, (A *ᵥ p - b) ⬝ᵥ (A *ᵥ p - b) ≤ (A *ᵥ q - b) ⬝ᵥ (A *ᵥ q - b)) ∧
          t.length ≤ 1.1 * radius) ∧
      k ≤ 10 ∧
      (k < 10 → t.length ≤ 1.1 * radius ∧
        (A.rank = n → 0 < t.damping → 0.9 * radius ≤ t.length)) := by
  subst hsystem
  obtain ⟨σ, U, -, h⟩ := Factorization.exists_factors true A hnm
  have hvanishes := Factorization.vanishes_factor A hnm
  rw [← countedStep_snd]
  generalize hrun : countedStep .plain _ (List.ofFn d) radius damping = run
  obtain ⟨k, t, rest⟩ := run
  unfold countedStep at hrun
  split at hrun
  case isTrue hshort =>
    obtain ⟨x, hx, hnormal, -⟩ := h.solveUndamped_eq hnm hvanishes b
    rw [undamped, hx, length_scaled] at hrun hshort
    simp only [Prod.mk.injEq] at hrun
    obtain ⟨rfl, rfl, rfl⟩ := hrun
    have hle : √((d * x) ⬝ᵥ (d * x)) ≤ 1.1 * radius := by linarith
    exact ⟨0, _, _, x, rfl, rfl, rfl, le_rfl, rfl, fun hpos => absurd hpos (lt_irrefl _),
      fun _ => ⟨residual_le_of_normal hnormal, hle⟩, Nat.zero_le _,
      fun _ => ⟨hle, fun _ hpos => absurd hpos (lt_irrefl _)⟩⟩
  case isFalse hlong =>
    rw [not_le] at hlong
    obtain ⟨⟨p, hdamps⟩, hpos, hcount, hfits⟩ := counted_damps h hnm b hd hradius 9 []
      (start_damping_nonneg _ _ hradius hdamping) (lowerBound_nonneg _ _ hradius hlong) hrun
    refine ⟨k, t, rest, p, rfl, rfl, hdamps.step_eq, hpos.le, hdamps.length_eq,
      fun _ => hdamps.normal, fun hzero => absurd hzero hpos.ne', hcount, fun hk => ?_⟩
    have hfits := hfits (Nat.le_of_lt_succ hk)
    exact ⟨hfits.length_le, fun hrank _ =>
      hfits.le_length (lowerBound_pos h hnm hvanishes hrank b hd hradius hlong)⟩

theorem trustStep_one_equation :
    1 ≤ 1 ∧ (∀ j, 0 < (![1] : Fin 1 → ℝ) j) ∧ (0 : ℝ) < 1 ∧ (0 : ℝ) ≤ 0 ∧
      ∃ (t : TrustStep ℝ) (rest : DampedSystem ℝ) (p : Fin 1 → ℝ),
        trustStep .plain (.ofFactorization (.factor .plain true (.ofMatrix !![(1 : ℝ)]))
          (List.ofFn ![3])) (List.ofFn ![1]) 1 0 = (t, rest) ∧
        t.step = List.ofFn p ∧ 0 < t.damping ∧ (1 + t.damping) * p 0 = 3 := by
  have hd : ∀ j, 0 < (![1] : Fin 1 → ℝ) j := by simp
  obtain ⟨k, t, rest, p, -, hstep, hp, hdamping, hlength, hnormal, hundamped, -⟩ :=
    trustStep_solves !![(1 : ℝ)] le_rfl ![3] hd one_pos le_rfl rfl
  refine ⟨le_rfl, hd, one_pos, le_rfl, t, rest, p, hstep, hp, ?_⟩
  have hpos : 0 < t.damping := by
    refine lt_of_le_of_ne hdamping fun hzero => ?_
    obtain ⟨hleast, hle⟩ := hundamped hzero.symm
    have hresidual : (p 0 - 3) * (p 0 - 3) ≤ 0 := by
      simpa [mulVec, dotProduct, -cons_mulVec] using hleast ![3]
    have hp : p 0 = 3 := by nlinarith
    rw [hlength, Real.sqrt_le_iff] at hle
    norm_num [dotProduct, hp] at hle
  have hsolution := congrFun (hnormal hpos) 0
  refine ⟨hpos, ?_⟩
  simpa [sq, mulVec, dotProduct, mul_apply] using hsolution

end

end Minima
