import Minima.Proofs.Annealing.Cold
import Minima.Proofs.Simplex.Centroid
import Minima.Proofs.Simplex.Narrowing

/-!
# The centroid in simulated annealing

A pass rebuilds the sum of the vertices before its moves, and a move that is accepted corrects it,
independently of the simplex method.  The points recorded on the way make no difference to the
simplex, and nor does the noise.
-/

namespace Minima

namespace Annealing

open Simplex (Spans Centered sumOf trialPoint)

/-! ## Moves -/

structure State.Spanned (state : State ℝ) (n : Nat) : Prop where
  spans : Spans n state.vertices
  length_values : state.values.length = n + 1
  length_sum : state.sum.length = n

structure State.Balanced (state : State ℝ) (n : Nat) : Prop where
  spans : Spans n state.vertices
  length_values : state.values.length = n + 1
  sum_eq : state.sum = sumOf n state.vertices

variable {ρ σ : Type} {P : Problem σ ℝ} {n i : Nat} {cold : ℝ} {state : State ℝ}
  {r : NoisyRanking ℝ} {x : Vec ℝ} {origin s s' : Session σ (Annealing ρ ℝ) ℝ} {clock : Clock ℝ}

theorem State.Balanced.spanned (h : state.Balanced n) : state.Spanned n :=
  ⟨h.spans, h.length_values, by rw [h.sum_eq, Simplex.length_sumOf h.spans.length_mem]⟩

theorem State.Spanned.balanced (h : state.Spanned n) : state.summed.Balanced n :=
  ⟨h.spans, h.length_values, by rw [State.summed, h.length_sum]⟩

theorem State.Balanced.record (h : state.Balanced n) (x : Vec ℝ) (value : ℝ) :
    (state.record x value).Balanced n where
  spans := by
    rw [vertices_record]
    exact h.spans
  length_values := by rw [values_record, h.length_values]
  sum_eq := by rw [sum_record, vertices_record, h.sum_eq]

theorem State.Spanned.record (h : state.Spanned n) (x : Vec ℝ) (value : ℝ) :
    (state.record x value).Spanned n where
  spans := by
    rw [vertices_record]
    exact h.spans
  length_values := by rw [values_record, h.length_values]
  length_sum := by rw [sum_record, h.length_sum]

theorem State.Balanced.length_trial (h : state.Balanced n) (hi : i < n + 1) (factor : ℝ) :
    (state.trial i factor).length = n := by
  simp only [State.trial, trialPoint, Vec.sub, Vec.scale, List.length_zipWith, List.length_map,
    h.spanned.length_sum, h.spans.length_getD hi, Nat.min_self]

theorem State.Balanced.replace (h : state.Balanced n) (hi : i < n + 1) (hx : x.length = n)
    (value : ℝ) : (state.replace i x value).Balanced n where
  spans := h.spans.set fun _ => hx
  length_values := List.length_set.trans h.length_values
  sum_eq := by rw [State.replace, h.sum_eq, Simplex.sumOf_set h.spans hi hx]

theorem leads_shrink_spanned (hlowest : r.lowest < n + 1) (places : List Nat)
    (h : state.Spanned n) (s : Session σ (Annealing ρ ℝ) ℝ) :
    Leads (shrink P r.lowest places state) s (fun made _ => made.Spanned n) (fun _ _ => True) := by
  induction places generalizing state s with
  | nil => exact h
  | cons i places ih =>
      unfold shrink
      refine leads_ite.mpr ⟨fun _ => ih h s, fun _ => ?_⟩
      refine (leads_true _ s).bind fun value s₁ _ => ih ?_ s₁
      have hrecorded := h.record (Vec.scale 0.5 (Vec.add (state.vertices.getD i [])
        (state.vertices.getD r.lowest []))) value
      refine ⟨hrecorded.spans.set fun hi => ?_, List.length_set.trans hrecorded.length_values,
        hrecorded.length_sum⟩
      simp only [Vec.scale, Vec.add, List.length_zipWith, List.length_map, h.spans.length_getD hi,
        h.spans.length_getD hlowest, Nat.min_self]

variable [RandomSource ρ]

theorem leads_tryMove_balanced (hhighest : r.highest < n + 1) (h : state.Balanced n) (factor : ℝ)
    (s : Session σ (Annealing ρ ℝ) ℝ) :
    Leads (tryMove P cold r factor state) s (fun made _ => made.2.Balanced n)
      (fun _ _ => True) := by
  unfold tryMove
  refine (leads_true _ s).bind fun value s₁ _ => (leads_true _ s₁).bind fun drawn s₂ _ => ?_
  have hrecorded := h.record (state.trial r.highest factor) value
  refine leads_ite.mpr ⟨fun _ => ?_, fun _ => hrecorded⟩
  have hvertex : (state.record (state.trial r.highest factor) value).vertices.getD r.highest [] =
      state.vertices.getD r.highest [] := by rw [vertices_record]
  have hreplaced := hrecorded.replace hhighest (h.length_trial hhighest factor) value
  rw [State.replace, hvertex] at hreplaced
  exact hreplaced

theorem leads_moves_spanned (hhighest : r.highest < n + 1) (hlowest : r.lowest < n + 1)
    (h : state.Balanced n) (s : Session σ (Annealing ρ ℝ) ℝ) :
    Leads (moves P cold r state) s (fun made _ => made.2.Spanned n) (fun _ _ => True) := by
  unfold moves
  refine (leads_tryMove_balanced hhighest h _ s).bind ?_
  rintro ⟨reflected, state₁⟩ s₁ h₁
  refine leads_ite.mpr ⟨fun _ => ?_, fun _ => leads_ite.mpr ⟨fun _ => ?_, fun _ => h₁.spanned⟩⟩
  · exact (leads_tryMove_balanced hhighest h₁ _ s₁).bind fun _ _ h₂ => h₂.spanned
  · refine (leads_tryMove_balanced hhighest h₁ _ s₁).bind ?_
    rintro ⟨contracted, state₂⟩ s₂ h₂
    refine leads_ite.mpr ⟨fun _ => ?_, fun _ => h₂.spanned⟩
    exact (leads_shrink_spanned hlowest _ h₂.spanned s₂).bind fun _ _ h₃ => h₃

/-! ## Runs -/

theorem leads_rank_highest (values : Vec ℝ) (hlength : values.length = n + 1) (hn : 0 < n)
    (s : Session σ (Annealing ρ ℝ) ℝ) :
    Leads (rank cold values) s (fun r _ => r.highest < n + 1 ∧ r.lowest < n + 1)
      (fun _ _ => True) := by
  unfold rank
  refine (leads_mapM (R := fun _ _ => True) (K := fun _ => True) (fun v _ s _ =>
    (leads_true _ s).imp fun _ _ _ => ⟨trivial, trivial⟩) trivial).bind ?_
  rintro noisy s₁ ⟨hmade, -⟩
  have hnoisy : noisy.length = n + 1 := hmade.length_eq.symm.trans hlength
  have hranks := NoisyRanking.ranks_of (fun v _ => le_refl v)
    (hnoisy ▸ Nat.succ_lt_succ hn : 2 ≤ noisy.length)
  rw [← hnoisy]
  exact ⟨hranks.highest_lt, hranks.lowest_lt⟩

theorem leads_pass_spanned (h : state.Spanned n) (hn : 0 < n) (clock : Clock ℝ)
    (s : Session σ (Annealing ρ ℝ) ℝ) :
    Leads (pass P clock state) s
      (fun next _ => ∀ clock' state', next = some (clock', state') → state'.Spanned n)
      (fun _ _ => True) := by
  unfold pass
  refine (leads_rank_highest state.values h.length_values hn s).bind ?_
  rintro r s₁ ⟨hhighest, hlowest⟩
  refine (leads_true _ s₁).bind fun stops s₂ _ => leads_ite.mpr ⟨fun _ => ?_, fun _ => ?_⟩
  · exact (leads_true _ s₂).bind fun _ _ _ => nofun
  · refine (leads_moves_spanned hhighest hlowest h.balanced s₂).bind ?_
    rintro ⟨spent, made⟩ s₃ h₃
    rw [leads_bind, leads_get]
    rintro clock' state' ⟨⟩
    exact h₃

omit [RandomSource ρ] in
theorem leads_start_spanned (origin : Session σ (Annealing ρ ℝ) ℝ) :
    Leads (start P) origin
      (fun first _ => first.2.Spanned origin.progress.point.length ∧
        0 < origin.progress.point.length) (fun _ _ => True) := by
  refine (leads_start_laid origin).imp ?_
  rintro first s' ⟨-, hpos, -, hvertices, hvalues, hsum⟩
  have hspans := Simplex.initialVertices_spans hvertices
  exact ⟨⟨hspans, hvalues.trans hspans.length_eq, by rw [hsum, Vec.length_zeros]⟩, hpos⟩

def MovesFrom {α : Type} [Scalar α] (P : Problem σ α) (origin : Session σ (Annealing ρ α) α)
    (cold : α) (r : NoisyRanking α) (state : State α) (t : Session σ (Annealing ρ α) α) : Prop :=
  ∃ clock before s s₁, Reaches P origin clock before s ∧ cold = -clock.temperature ∧
    rank cold before.values s = (.ok r, s₁) ∧
    finished clock.iteration (Simplex.size before.sum.length before.vertices) s₁ =
      (.ok false, t) ∧
    state = before.summed

/-- The sessions and states in which a run from `origin` tries to move a vertex, with the negative
of the temperature, the ranking and the factor. -/
inductive Calls {α : Type} [Scalar α] (P : Problem σ α) (origin : Session σ (Annealing ρ α) α) :
    α → NoisyRanking α → α → State α → Session σ (Annealing ρ α) α → Prop
  | reflection {cold : α} {r : NoisyRanking α} {state : State α}
      {s : Session σ (Annealing ρ α) α} :
      MovesFrom P origin cold r state s → Calls P origin cold r (-1) state s
  | expansion {cold reflected : α} {r : NoisyRanking α} {state state' : State α}
      {s s' : Session σ (Annealing ρ α) α} :
      MovesFrom P origin cold r state s →
        tryMove P cold r (-1) state s = (.ok (reflected, state'), s') →
        reflected ≤ r.lowestNoisy → Calls P origin cold r 2.0 state' s'
  | contraction {cold reflected : α} {r : NoisyRanking α} {state state' : State α}
      {s s' : Session σ (Annealing ρ α) α} :
      MovesFrom P origin cold r state s →
        tryMove P cold r (-1) state s = (.ok (reflected, state'), s') →
        ¬ reflected ≤ r.lowestNoisy → r.nextHighestNoisy ≤ reflected →
        Calls P origin cold r 0.5 state' s'

theorem Reaches.spanned (h : Reaches P origin clock state s) :
    state.Spanned origin.progress.point.length ∧ 0 < origin.progress.point.length := by
  induction h with
  | start hstart => exact (leads_start_spanned origin).of_ok hstart
  | pass _ hpass ih =>
      obtain ⟨hspanned, hpos⟩ := ih
      exact ⟨(leads_pass_spanned hspanned hpos _ _).of_ok hpass _ _ rfl, hpos⟩

theorem MovesFrom.balanced (h : MovesFrom P origin cold r state s) :
    state.Balanced origin.progress.point.length ∧
      r.highest < origin.progress.point.length + 1 ∧ 0 < origin.progress.point.length := by
  obtain ⟨clock, before, s₀, s₁, hreaches, -, hranked, -, rfl⟩ := h
  obtain ⟨hspanned, hpos⟩ := hreaches.spanned
  obtain ⟨hhighest, -⟩ :=
    (leads_rank_highest before.values hspanned.length_values hpos s₀).of_ok hranked
  exact ⟨hspanned.balanced, hhighest, hpos⟩

theorem Calls.centered {factor : ℝ} (h : Calls P origin cold r factor state s) :
    Centered state.sum.length r.highest state.vertices state.sum := by
  obtain ⟨hbalanced, hhighest, hpos⟩ : state.Balanced origin.progress.point.length ∧
      r.highest < origin.progress.point.length + 1 ∧ 0 < origin.progress.point.length := by
    cases h with
    | reflection hmoves => exact hmoves.balanced
    | expansion hmoves htried _ =>
        obtain ⟨hbalanced, hhighest, hpos⟩ := hmoves.balanced
        exact ⟨(leads_tryMove_balanced hhighest hbalanced _ _).of_ok htried, hhighest, hpos⟩
    | contraction hmoves htried _ _ =>
        obtain ⟨hbalanced, hhighest, hpos⟩ := hmoves.balanced
        exact ⟨(leads_tryMove_balanced hhighest hbalanced _ _).of_ok htried, hhighest, hpos⟩
  rw [hbalanced.spanned.length_sum]
  exact hbalanced.spans.centered hpos hhighest hbalanced.sum_eq

end Annealing

/-- Whichever move a run of the simplex method or of simulated annealing tries, the sum that it
works with is that of all vertices as they are then, and the trial point of a factor `f` is
`c + f (v - c)`, with the vertex `v` that moves and the centroid `c` of the others. -/
theorem calls_centered {ρ σ τ : Type} [RandomSource ρ] :
    (∀ (P : Problem σ ℝ) (origin : Session σ (Simplex ℝ) ℝ) (r : Simplex.Ranking) (factor : ℝ)
        (s : Session σ (Simplex ℝ) ℝ), Simplex.Calls P origin r factor s →
      Simplex.Centered (s.memory.values.length - 1) r.highest s.memory.vertices s.memory.sum) ∧
      ∀ (P : Problem τ ℝ) (origin : Session τ (Annealing ρ ℝ) ℝ) (cold : ℝ)
        (r : Annealing.NoisyRanking ℝ) (factor : ℝ) (state : Annealing.State ℝ)
        (s : Session τ (Annealing ρ ℝ) ℝ), Annealing.Calls P origin cold r factor state s →
      Simplex.Centered state.sum.length r.highest state.vertices state.sum :=
  ⟨fun _ _ _ _ _ h => h.centered, fun _ _ _ _ _ _ _ h => h.centered⟩

/-! ## Second moves on a trough -/

open Annealing (trough openLandscape)

namespace Annealing

theorem exists_expansion_trough :
    ∃ cold r state s, Calls (openLandscape trough) fromZero cold r 2.0 state s ∧
      state.vertices = [[2], [1]] := by
  have hcold := cold_landscape trough
  obtain ⟨clock, state, s, hstart, hvertices, hvalues, hlength, hclock, hrule⟩ :=
    exists_start_landscape trough
  have hreaches := Reaches.start hstart
  have hzero := ZeroScalar.isZero_neg (hreaches.sampled hcold).1
  obtain ⟨r, s₁, hranked, hrule₁⟩ :=
    (upholds_rank (bears_landscape trough _) (-clock.temperature) state.values s hrule).exists_ok
  have hleads : Leads (rank (-clock.temperature) state.values) s _ fun _ _ => True :=
    leads_rank_cold (List.map Cost.point) hcold.logsFinite hzero (fun _ _ => rfl)
      (hvalues ▸ Nat.le_refl 2) s
  obtain ⟨hr, -⟩ := hleads.of_ok hranked
  rw [ranking_trough hvalues] at hr
  obtain ⟨_, t, hfinished, rfl⟩ := (leads_finished_landscape
    (Simplex.size state.sum.length state.vertices) hrule₁).exists_ok
  rw [← hclock] at hfinished
  have hmoves : MovesFrom (openLandscape trough) fromZero (-clock.temperature) r state.summed t :=
    ⟨clock, state, s, s₁, hreaches, rfl, hranked, hfinished, rfl⟩
  obtain ⟨⟨reflected, made⟩, t', htried, -⟩ := (upholds_tryMove (bears_landscape trough t.rule)
    (-clock.temperature) r (-1) state.summed t rfl).exists_ok
  obtain ⟨hvalue, rfl, -⟩ :=
    (leads_tryMove_cold hcold.prices hcold.logsFinite hzero hr (-1) state.summed t).of_ok htried
  have hcost : (landscape trough).valueOrZero [2] = 0 := by
    change trough 2 = 0
    norm_num [trough]
  have hreflection := trial_summed_trough hvertices hlength
  dsimp only at hvalue
  rw [hreflection, hcost] at hvalue
  have hreflected : reflected ≤ r.lowestNoisy := by
    rw [same_real.mp hvalue, same_real.mp hr.lowestNoisy]
    exact zero_le_one
  refine ⟨_, r, _, t', .expansion hmoves htried hreflected, ?_⟩
  dsimp only
  rw [hreflection, State.tried, hcost, if_pos (two_pos (α := ℝ)), State.replace, vertices_record]
  exact congrArg (·.set 0 [2]) hvertices

end Annealing

namespace Simplex

noncomputable def aroundZero : Session (List (Evaluation ℝ)) (Simplex ℝ) ℝ where
  progress := .start [] [0]
  rule := ⟨3, 2, 0, 1, 1, .running, 0, Nat.one_lt_two, StoppingRule.two_le_three⟩
  memory := .new 1

theorem size_nonneg (n : Nat) (vertices : List (Vec ℝ)) : 0 ≤ size n vertices := by
  refine div_nonneg ?_ (Nat.cast_nonneg _)
  rw [Vec.sum_eq]
  refine List.sum_nonneg fun a ha => ?_
  obtain ⟨v, -, rfl⟩ := List.mem_map.mp ha
  exact Real.sqrt_nonneg _

theorem exists_movesFrom_trough :
    ∃ s, MovesFrom (openLandscape trough) aroundZero ⟨1, 0, 1⟩ s ∧
      s.memory.vertices = [[0], [1]] ∧ s.memory.values = [2, 1] ∧ s.memory.sum = [1] := by
  have hzero : trough 0 = 2 := by norm_num [trough]
  have hone : trough 1 = 1 := by norm_num [trough]
  obtain ⟨vertices, s, s', hstart, hevaluated, hvertices, hvalues, hrule⟩ :
      ∃ vertices s s', start (openLandscape trough) aroundZero = (.ok vertices, s) ∧
        evaluateVertices (openLandscape trough) vertices s = (.ok (), s') ∧
        s'.memory.vertices = [[0], [0 + 1 * 1]] ∧
        s'.memory.values = [trough 0, trough (0 + 1 * 1)] ∧ s'.rule = aroundZero.rule.reset :=
    ⟨_, _, _, rfl, rfl, rfl, rfl, rfl⟩
  rw [zero_add, one_mul] at hvertices hvalues
  rw [hzero, hone] at hvalues
  obtain ⟨s₁, hranked, hvertices₁, hvalues₁, hsum₁, hrule₁⟩ :
      ∃ s₁, rank 1 s' = (.ok (ranking s'.memory.values), s₁) ∧
        s₁.memory.vertices = s'.memory.vertices ∧ s₁.memory.values = s'.memory.values ∧
        s₁.memory.sum = sumOf 1 s'.memory.vertices ∧ s₁.rule = s'.rule :=
    ⟨_, rfl, rfl, rfl, rfl, rfl⟩
  have hr : ranking s'.memory.values = ⟨1, 0, 1⟩ := by
    rw [hvalues]
    norm_num [ranking, Ranking.add, Ranking.addHigh, Ranking.addLow]
  have hsum : s₁.memory.sum = [0 + 0 + 1] := by
    rw [hsum₁, hvertices]
    rfl
  rw [zero_add, zero_add] at hsum
  have hgoes : Leads (finished 1 1) s₁ (fun stops t => stops = false ∧ t.memory = s₁.memory)
      fun _ _ => False := by
    unfold finished
    simp only [leads_bind, leads_get, leads_ite, leads_pure, leads_check, hrule₁, hrule]
    exact ⟨fun h => absurd h (not_lt.mpr (size_nonneg _ _)), fun _ => ⟨rfl, trivial⟩⟩
  obtain ⟨_, t, hfinished, rfl, hmemory⟩ := hgoes.exists_ok
  refine ⟨t, ⟨1, s', s₁, .start hstart hevaluated, hr ▸ hranked, hfinished⟩, ?_⟩
  rw [hmemory, hvertices₁, hvalues₁, hsum]
  exact ⟨hvertices, hvalues, rfl⟩

theorem exists_expansion_trough :
    ∃ r s, Calls (openLandscape trough) aroundZero r 2.0 s ∧
      s.memory.vertices = [[2], [1]] := by
  have htwo : trough 2 = 0 := by norm_num [trough]
  obtain ⟨s, hmoves, hvertices, hvalues, hsum⟩ := exists_movesFrom_trough
  have hreach : reach (openLandscape trough).region.contains (s.memory.values.length - 1)
      s.memory.sum (s.memory.vertices.getD 0 []) maxHalvings (-1) = some ([2], -1) := by
    have hfactor : negligible ((-1 : ℝ) * 0.5) = false := by
      norm_num [negligible, Scalar.epsilon]
    have htrial : trialPoint 1 [1] [0] (-1 : ℝ) = [2] := by
      refine (Annealing.trialPoint_line 1 0 (-1)).trans ?_
      norm_num
    rw [hvertices, hvalues, hsum, maxHalvings, reach_succ, hfactor, if_neg Bool.false_ne_true]
    exact (if_pos rfl).trans (congrArg (fun x => some (x, -1)) htrial)
  have hlower : trough 2 < s.memory.values.getD 0 0 := by
    rw [hvalues, htwo]
    exact two_pos (α := ℝ)
  have hreflected := extrapolate_eq (openLandscape trough) 0 (-1) s
  rw [hreach] at hreflected
  obtain ⟨s', hmade, hreplaced⟩ : ∃ s', extrapolate (openLandscape trough) 0 (-1) s =
      (.ok (some ⟨trough 2, -1⟩), s') ∧ s'.memory =
        if trough 2 < s.memory.values.getD 0 0 then s.memory.replace 0 [2] (trough 2)
        else s.memory := ⟨_, hreflected, rfl⟩
  rw [if_pos hlower, replace, hvertices, hvalues, htwo] at hreplaced
  refine ⟨_, s', .expansion hmoves hmade ⟨?_, same_real.mpr rfl⟩, ?_⟩
  · rw [hreplaced, htwo]
    exact zero_le_one
  · rw [hreplaced]
    rfl

end Simplex

theorem calls_centered_trough :
    (∃ r s, Simplex.Calls (openLandscape trough) Simplex.aroundZero r 2.0 s ∧
      s.memory.vertices = [[2], [1]] ∧ s.memory.sum = [3]) ∧
      ∃ cold r state s, Annealing.Calls (openLandscape trough) Annealing.fromZero cold r 2.0
        state s ∧ state.vertices = [[2], [1]] ∧ state.sum = [3] := by
  have hthree {n i : Nat} {sum : Vec ℝ} (h : Simplex.Centered n i [[2], [1]] sum) :
      sum = [3] := by
    obtain rfl : 1 = n := Nat.succ.inj h.spans.length_eq
    rw [h.sum_eq]
    norm_num [Simplex.sumOf, Vec.zeros, Vec.add]
  obtain ⟨hsimplex, hannealing⟩ := calls_centered (ρ := Generator)
    (σ := List (Evaluation ℝ)) (τ := List (Evaluation ℝ))
  obtain ⟨r, s, hcalls, hvertices⟩ := Simplex.exists_expansion_trough
  obtain ⟨cold, r', state, s', hcalls', hvertices'⟩ := Annealing.exists_expansion_trough
  have hcentered := hsimplex _ _ _ _ _ hcalls
  have hcentered' := hannealing _ _ _ _ _ _ _ hcalls'
  rw [hvertices] at hcentered
  rw [hvertices'] at hcentered'
  exact ⟨⟨r, s, hcalls, hvertices, hthree hcentered⟩,
    cold, r', state, s', hcalls', hvertices', hthree hcentered'⟩

end Minima
