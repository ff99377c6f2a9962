import Minima.Proofs.Exact.Ordered
import Minima.Proofs.Annealing.Expansion
import Minima.Proofs.Progress

/-!
# Annealing without heat

At temperature zero noise is zero, whatever is drawn, and stays so with a constant factor.  The
least value of the simplex is then the least cost of the run until a reflection is overwritten.
-/

namespace Minima

structure Problem.Prices {σ α : Type} [Scalar α] (P : Problem σ α) (cost : Vec α → α)
    (log : σ → List (Vec α)) : Prop where
  costs : P.objective.Costs cost log
  isFinite (x : Vec α) : Scalar.isFinite (cost x) = true
  contains (x : Vec α) : P.region.contains x = true

namespace Annealing

variable {ρ σ α : Type} [Scalar α] {P : Problem σ α} {cost : Vec α → α}
  {log : σ → List (Vec α)} {asked : List (Vec α)} {state : State α} {n : Nat}
  {s s' s'' : Session σ (Annealing ρ α) α}

/-! ## Moves -/

/-- The run has asked for costs at the given points, the last one first, and keeps its
schedule. -/
structure Asks (log : σ → List (Vec α)) (asked : List (Vec α))
    (s s' : Session σ (Annealing ρ α) α) : Prop where
  log_eq : log s'.progress.oracle = asked ++ log s.progress.oracle
  cooling_eq : s'.memory.cooling = s.memory.cooling

omit [Scalar α] in
theorem Asks.trans {asked' : List (Vec α)} (h : Asks log asked s s') (h' : Asks log asked' s' s'') :
    Asks log (asked' ++ asked) s s'' where
  log_eq := by rw [h'.log_eq, h.log_eq, List.append_assoc]
  cooling_eq := h'.cooling_eq.trans h.cooling_eq

omit [Scalar α] in
theorem Asks.refl (s : Session σ (Annealing ρ α) α) : Asks log [] s s := ⟨rfl, rfl⟩

theorem leads_evaluate_cost (prices : P.Prices cost log) (x : Vec α)
    (s : Session σ (Annealing ρ α) α) :
    Leads (evaluate P x) s (fun v s' => v = cost x ∧ Asks log [x] s s') (fun _ _ => True) := by
  unfold evaluate
  rw [if_pos (prices.contains x)]
  refine ((leads_work_value prices.costs x s).imp_stop fun _ _ _ => trivial).bind ?_
  rintro _ s' ⟨rfl, hlog, -, hmemory⟩
  have hdefined : Scalar.isUndefined (cost x) = false := by
    simp [Scalar.isUndefined, prices.costs.defined x]
  rw [hdefined]
  exact ⟨rfl, hlog, congrArg Annealing.cooling hmemory⟩

structure Shrinks (cost : Vec α → α) (lowest : Nat) (places : List Nat) (values : List α)
    (asked : List (Vec α)) (values' : List α) : Prop where
  length_eq : values'.length = values.length
  getD_eq : ∀ k, k ∉ places ∨ k = lowest → values'.getD k 0 = values.getD k 0
  mem_of_asked : ∀ x ∈ asked, cost x ∈ values'
  updates : Updates cost values asked values'

variable {lowest i : Nat} {places : List Nat} {values values' : List α} {x : Vec α}

theorem Shrinks.lowest_cons (h : Shrinks cost lowest places values asked values') :
    Shrinks cost lowest (lowest :: places) values asked values' :=
  { h with getD_eq := fun k hk => h.getD_eq k (hk.imp_left (mt (List.mem_cons_of_mem lowest))) }

theorem Shrinks.cons (hi : i ∉ places) (hlt : i < values.length) (hne : i ≠ lowest)
    (h : Shrinks cost lowest places (values.set i (cost x)) asked values') :
    Shrinks cost lowest (i :: places) values (asked ++ [x]) values' where
  length_eq := by rw [h.length_eq, List.length_set]
  getD_eq k hk := by
    have hki : i ≠ k := by
      rintro rfl
      exact hk.elim (fun hk => hk List.mem_cons_self) hne
    rw [h.getD_eq k (hk.imp_left (mt (List.mem_cons_of_mem i))), Simplex.getD_set_ne hki]
  mem_of_asked := by
    refine List.forall_mem_append.mpr ⟨h.mem_of_asked, List.forall_mem_singleton.mpr ?_⟩
    -- No later place is this one, so the cost is still there in the end.
    have hx := h.getD_eq i (.inl hi)
    rw [Simplex.getD_set_self hlt] at hx
    rw [← hx]
    exact Simplex.getD_mem (by rwa [h.length_eq, List.length_set])
  updates := (Updates.set values i (List.mem_singleton_self x)).trans h.updates

theorem Stays.shrinks {top : NoisyRanking α} {asked' : List (Vec α)} {next next' : State α}
    (h : Stays cost top state asked next)
    (hshrinks : Shrinks cost top.lowest places next.values asked' next'.values) :
    Stays cost top state (asked' ++ asked) next' where
  length_eq := hshrinks.length_eq.trans h.length_eq
  lowest_eq := (hshrinks.getD_eq _ (.inr rfl)).trans h.lowest_eq
  updates := h.updates.trans hshrinks.updates

theorem leads_shrink_cold (prices : P.Prices cost log) (lowest : Nat) (hnodup : places.Nodup)
    (hplaces : ∀ i ∈ places, i < state.values.length) :
    Leads (shrink P lowest places state) s
      (fun next s' => ∃ asked, Asks log asked s s' ∧
        Shrinks cost lowest places state.values asked next.values)
      (fun _ _ => True) := by
  induction places generalizing state s with
  | nil => exact ⟨[], .refl s, rfl, fun _ _ => rfl, nofun, .refl _ _⟩
  | cons i places ih =>
      obtain ⟨hi, hnodup⟩ := List.nodup_cons.mp hnodup
      obtain ⟨hlt, hplaces⟩ := List.forall_mem_cons.mp hplaces
      unfold shrink
      rw [leads_ite]
      refine ⟨fun hlowest => ?_, fun hother => ?_⟩
      · refine (ih hnodup hplaces).imp ?_
        rintro next s' ⟨asked, hasks, hshrinks⟩
        rw [hlowest]
        exact ⟨asked, hasks, hshrinks.lowest_cons⟩
      · generalize Vec.scale (0.5 : α) _ = x
        refine (leads_evaluate_cost prices x s).bind ?_
        rintro _ s₁ ⟨rfl, hasks₁⟩
        dsimp only
        refine (ih hnodup ?_).imp ?_
        · simpa only [List.length_set, values_record] using hplaces
        · rintro next s₂ ⟨asked, hasks₂, hshrinks⟩
          dsimp only at hshrinks
          rw [values_record] at hshrinks
          exact ⟨_, hasks₁.trans hasks₂, hshrinks.cons hi hlt hother⟩

/-! ## Moves without noise -/

variable [ZeroScalar α] [RandomSource ρ] {cold : α} {r top : NoisyRanking α}
  {stop : Failure α → Session σ (Annealing ρ α) α → Prop}

def LogsFinite (α : Type) [Scalar α] : Prop :=
  ∀ w, Scalar.isFinite (Scalar.ln (Random.fraction w) : α) = true

theorem leads_noise_cold (log : σ → List (Vec α)) (hlogs : LogsFinite α)
    (hcold : Scalar.isZero cold = true) (s : Session σ (Annealing ρ α) α) :
    Leads (noise cold) s (fun v s' => Scalar.isZero v = true ∧ Asks log [] s s') stop :=
  ⟨ZeroScalar.isZero_mul hcold (hlogs _), rfl, rfl⟩

variable [OrderedScalar α]

open OrderedScalar

theorem leads_rank_cold (log : σ → List (Vec α)) (hlogs : LogsFinite α)
    (hcold : Scalar.isZero cold = true)
    (hfinite : ∀ v ∈ values, Scalar.isFinite v = true) (hlength : 2 ≤ values.length)
    (s : Session σ (Annealing ρ α) α) :
    Leads (rank cold values) s
      (fun r s' => NoisyRanking.Same r (.of values) ∧ Asks log [] s s') stop := by
  unfold rank
  refine (leads_mapM (R := fun v noisy => Scalar.same noisy v = true) (K := Asks log [] s)
    (fun v hv t ht => ?_) (.refl s)).bind ?_
  · refine (leads_noise_cold log hlogs hcold t).bind fun noisy u hu => ?_
    exact ⟨ZeroScalar.same_add (hfinite v hv) hu.1, ht.trans hu.2⟩
  · rintro noisy t ⟨hsame, ht⟩
    exact ⟨NoisyRanking.same_of hsame.flip hlength, ht⟩

theorem leads_tryMove_cold (prices : P.Prices cost log) (hlogs : LogsFinite α)
    (hcold : Scalar.isZero cold = true) (hr : NoisyRanking.Same r top) (factor : α)
    (state : State α) (s : Session σ (Annealing ρ α) α) :
    Leads (tryMove P cold r factor state) s
      (fun made s' => Scalar.same made.1 (cost (state.trial top.highest factor)) = true ∧
        made.2 = state.tried cost top (state.trial top.highest factor) ∧
        Asks log [state.trial top.highest factor] s s')
      (fun _ _ => True) := by
  unfold tryMove
  rw [hr.highest_eq]
  dsimp only
  refine (leads_evaluate_cost prices (state.trial top.highest factor) s).bind ?_
  rintro _ s₁ ⟨rfl, hasks₁⟩
  refine (leads_noise_cold log hlogs hcold s₁).bind ?_
  rintro drawn s₂ ⟨hzero, hasks₂⟩
  have hsame := ZeroScalar.same_sub (prices.isFinite (state.trial top.highest factor)) hzero
  have haccepts := same_lt_iff hsame hr.highestNoisy
  unfold State.tried
  rw [leads_ite]
  refine ⟨fun h => ?_, fun h => ?_⟩
  · rw [if_pos (haccepts.mp h)]
    exact ⟨hsame, by simp only [State.replace, State.trial, vertices_record],
      hasks₁.trans hasks₂⟩
  · rw [if_neg (mt haccepts.mpr h)]
    exact ⟨hsame, rfl, hasks₁.trans hasks₂⟩

/-- The moves of a pass without noise lose the least cost only to an expansion. -/
theorem leads_moves_cold (prices : P.Prices cost log) (hlogs : LogsFinite α)
    (hcold : Scalar.isZero cold = true) (hr : NoisyRanking.Same r (.of state.values))
    (hdefined : ∀ v ∈ state.values, v ≤ v) (hshaped : state.Shaped n) (hn : 0 < n)
    (s : Session σ (Annealing ρ α) α) :
    Leads (moves P cold r state) s
      (fun made s' => ∃ asked, Asks log asked s s' ∧ Follows cost state asked made.2)
      (fun _ _ => True) := by
  have hranks : (NoisyRanking.of state.values).Ranks state.values state.values.length :=
    NoisyRanking.ranks_of hdefined (by rw [hshaped.length_values]; omega)
  have hcost := prices.costs.defined
  have hreflects : Leads (tryMove P cold r (-1) state) s
      (fun made s' => Scalar.same made.1 (cost state.reflection) = true ∧
        made.2 = state.tried cost (.of state.values) state.reflection ∧
        Asks log [state.reflection] s s')
      (fun _ _ => True) := leads_tryMove_cold prices hlogs hcold hr (-1) state s
  unfold moves
  refine hreflects.bind ?_
  rintro ⟨reflected, state₁⟩ s₁ ⟨hreflected, rfl, hasks₁⟩
  dsimp only at hreflected ⊢
  rw [leads_ite, same_le_iff hreflected hr.lowestNoisy]
  refine ⟨fun hlow => ?_, fun habove => ?_⟩
  · refine (leads_tryMove_cold prices hlogs hcold hr 2.0 _ s₁).bind ?_
    rintro ⟨_, state₂⟩ s₂ ⟨-, rfl, hasks₂⟩
    exact ⟨_, hasks₁.trans hasks₂, follows_reflection hcost hranks rfl hlow rfl⟩
  -- All other moves keep the lowest vertex, and ask for nothing lower that they do not keep.
  have hle : (NoisyRanking.of state.values).lowestNoisy ≤ cost state.reflection :=
    (le_total (hcost _) (le_refl_left hranks.lowest_le_highest)).resolve_left habove
  have hstays : Stays cost (.of state.values) state [state.reflection]
      (state.tried cost (.of state.values) state.reflection) := (Stays.refl hranks).tried hranks _
  rw [leads_ite]
  refine ⟨fun _ => ?_, fun _ => ?_⟩
  · refine (leads_tryMove_cold prices hlogs hcold hr 0.5 _ s₁).bind ?_
    rintro ⟨contracted, state₂⟩ s₂ ⟨hcontracted, rfl, hasks₂⟩
    dsimp only at hcontracted ⊢
    generalize State.trial _ _ (0.5 : α) = contraction at *
    rw [leads_ite, same_le_iff hr.highestNoisy hcontracted]
    refine ⟨fun hrejected => ?_, fun _ => ?_⟩
    · have hshaped₂ := (hshaped.tried cost (.of state.values) state.reflection).tried cost
        (.of state.values) contraction
      refine (leads_shrink_cold prices r.lowest List.nodup_range fun i hi => ?_).bind ?_
      · rw [hshaped₂.length_values, ← hshaped₂.length_vertices]
        exact List.mem_range.mp hi
      rintro next s₃ ⟨asked, hasks₃, hshrinks⟩
      rw [hr.lowest_eq] at hshrinks
      refine ⟨_, (hasks₁.trans hasks₂).trans hasks₃,
        ((hstays.tried hranks contraction).shrinks hshrinks).follows hranks hle ?_⟩
      refine List.forall_mem_append.mpr ⟨fun x hx => ⟨_, hshrinks.mem_of_asked x hx, hcost x⟩, ?_⟩
      have hlowest := ((hstays.tried hranks contraction).shrinks hshrinks).lowest_mem hranks
      refine List.forall_mem_cons.mpr ⟨?_, List.forall_mem_singleton.mpr ⟨_, hlowest, hle⟩⟩
      exact ⟨_, hlowest, le_trans hranks.lowest_le_highest hrejected⟩
    · refine ⟨_, hasks₁.trans hasks₂, (hstays.tried hranks _).follows hranks hle ?_⟩
      exact hstays.covers_tried hranks hcost (List.forall_mem_singleton.mpr hle) _
  · refine ⟨_, hasks₁, hstays.follows hranks hle ?_⟩
    exact (Stays.refl hranks).covers_tried hranks hcost nofun _

/-! ## Passes without noise -/

variable {clock clock' : Clock α} {state' : State α} {epsilon : α} {m : Nat}
  {origin : Session σ (Annealing ρ α) α} {requests : List (Vec α)}

omit [OrderedScalar α] [RandomSource ρ] in
theorem isZero_advance {a : Annealing ρ α} (hcooling : a.cooling = .constantFactor epsilon m)
    (hfactor : Scalar.isFinite (1 - epsilon) = true)
    (hclock : Scalar.isZero clock.temperature = true) (spent : Nat) :
    Scalar.isZero (clock.advance a spent).temperature = true := by
  unfold Clock.advance
  dsimp only
  split
  · rw [hcooling]
    exact ZeroScalar.isZero_mul hclock hfactor
  · exact hclock

omit [ZeroScalar α] [OrderedScalar α] [RandomSource ρ] in
theorem leads_finished_asks (log : σ → List (Vec α)) (iteration : Nat) (size : α)
    (s : Session σ (Annealing ρ α) α) :
    Leads (finished iteration size) s (fun _ s' => Asks log [] s s') stop := by
  unfold finished
  rw [leads_bind, leads_check, leads_ite]
  exact ⟨fun _ => ⟨rfl, rfl⟩, fun _ => ⟨rfl, rfl⟩⟩

theorem leads_pass_cold (prices : P.Prices cost log) (hlogs : LogsFinite α)
    (hclock : Scalar.isZero clock.temperature = true)
    (hcooling : s.memory.cooling = .constantFactor epsilon m)
    (hfactor : Scalar.isFinite (1 - epsilon) = true)
    (hfinite : ∀ v ∈ state.values, Scalar.isFinite v = true) (hshaped : state.Shaped n)
    (hn : 0 < n) :
    Leads (pass P clock state) s
      (fun next s' => ∀ clock' state', next = some (clock', state') →
        ∃ asked, Asks log asked s s' ∧ Follows cost state.summed asked state' ∧
          Scalar.isZero clock'.temperature = true)
      (fun _ _ => True) := by
  have hcold := ZeroScalar.isZero_neg hclock
  have hdefined : ∀ v ∈ state.values, v ≤ v := fun v hv => le_refl_of_isFinite (hfinite v hv)
  unfold pass
  refine (leads_rank_cold log hlogs hcold hfinite (by rw [hshaped.length_values]; omega) s).bind ?_
  rintro r s₁ ⟨hr, hasks₁⟩
  refine (leads_finished_asks log _ _ s₁).bind fun stops s₂ hasks₂ => ?_
  rw [leads_ite]
  refine ⟨fun _ => ?_, fun _ => ?_⟩
  · rw [leads_bind, leads_settle, leads_pure]
    nofun
  · have hsummed : state.summed.Shaped n := ⟨hshaped.length_vertices, hshaped.length_values⟩
    refine (leads_moves_cold prices hlogs hcold ?_ ?_ hsummed hn s₂).bind ?_
    · exact hr
    · exact hdefined
    rintro ⟨spent, made⟩ s₃ ⟨asked, hasks₃, hfollows⟩
    rw [leads_bind, leads_get, leads_pure]
    rintro clock' state' ⟨⟩
    have hasks := (hasks₁.trans hasks₂).trans hasks₃
    rw [List.nil_append, List.append_nil] at hasks
    exact ⟨asked, hasks, hfollows,
      isZero_advance (hasks.cooling_eq.trans hcooling) hfactor hclock _⟩

/-! ## Runs without noise -/

omit [ZeroScalar α] [OrderedScalar α] [RandomSource ρ] in
theorem leads_mapM_cost (prices : P.Prices cost log) (vertices : List (Vec α))
    (s : Session σ (Annealing ρ α) α) :
    Leads (vertices.mapM (evaluate P)) s
      (fun values s' => values = vertices.map cost ∧ Asks log vertices.reverse s s')
      (fun _ _ => True) := by
  induction vertices generalizing s with
  | nil => exact ⟨rfl, .refl s⟩
  | cons x vertices ih =>
      rw [List.mapM_cons]
      refine (leads_evaluate_cost prices x s).bind ?_
      rintro _ s₁ ⟨rfl, hasks₁⟩
      refine (ih s₁).bind ?_
      rintro _ s₂ ⟨rfl, hasks₂⟩
      rw [List.reverse_cons]
      exact ⟨rfl, hasks₁.trans hasks₂⟩

omit [ZeroScalar α] [OrderedScalar α] [RandomSource ρ] in
theorem leads_start_cold (prices : P.Prices cost log) (origin : Session σ (Annealing ρ α) α) :
    Leads (start P) origin
      (fun first s' => first.1.temperature = origin.memory.temperature ∧ ∃ vertices,
        Simplex.initialVertices P.region origin.progress.point origin.memory.lambda =
          .ok vertices ∧ first.2.vertices = vertices ∧ first.2.values = vertices.map cost ∧
        first.2.sum = Vec.zeros origin.progress.point.length ∧
        Asks log vertices.reverse origin s')
      (fun _ _ => True) := by
  unfold start
  simp only [leads_bind, leads_reset, leads_get, leads_ite, leads_throw, leads_attempt,
    Progress.reset]
  refine ⟨fun _ => trivial, fun _ => ⟨fun _ => trivial, fun _ => ?_⟩⟩
  cases Simplex.initialVertices P.region origin.progress.point origin.memory.lambda with
  | error e => trivial
  | ok vertices =>
      refine (leads_mapM_cost prices vertices _).imp ?_
      rintro _ s' ⟨rfl, hasks⟩
      obtain ⟨hvalues, hvertices, hsum⟩ := simplex_foldl_record ⟨vertices, vertices.map cost,
        Vec.zeros origin.progress.point.length, origin.progress.point, Scalar.largest⟩
        (vertices.zip (vertices.map cost))
      exact ⟨rfl, vertices, rfl, hvertices, hvalues, hsum, hasks.log_eq, hasks.cooling_eq⟩

/-- A run without constraint and without noise. -/
structure Cold (P : Problem σ α) (origin : Session σ (Annealing ρ α) α) (cost : Vec α → α)
    (log : σ → List (Vec α)) : Prop where
  prices : P.Prices cost log
  logsFinite : LogsFinite α
  isZero_temperature : Scalar.isZero origin.memory.temperature = true
  cooling : ∃ epsilon m, origin.memory.cooling = .constantFactor epsilon m ∧
    Scalar.isFinite (1 - epsilon) = true

theorem Cold.follows (h : Cold P origin cost log) (hreaches : Reaches P origin clock state s)
    (hclock : Scalar.isZero clock.temperature = true) (hasks : Asks log requests origin s)
    (hsampled : Sampled cost requests state.values)
    (hpass : pass P clock state s = (.ok (some (clock', state')), s')) :
    ∃ asked, Asks log asked s s' ∧ Follows cost state.summed asked state' ∧
      Scalar.isZero clock'.temperature = true := by
  obtain ⟨epsilon, m, hcooling, hfactor⟩ := h.cooling
  obtain ⟨hshaped, hn, -⟩ := hreaches.watched
  have hfinite : ∀ v ∈ state.values, Scalar.isFinite v = true := by
    intro v hv
    obtain ⟨x, -, rfl⟩ := hsampled v hv
    exact h.prices.isFinite x
  exact (leads_pass_cold h.prices h.logsFinite hclock (hasks.cooling_eq.trans hcooling) hfactor
    hfinite hshaped hn).of_ok hpass clock' state' rfl

theorem Reaches.sampled (h : Cold P origin cost log) (hreaches : Reaches P origin clock state s) :
    Scalar.isZero clock.temperature = true ∧
      ∃ requests, Asks log requests origin s ∧ Sampled cost requests state.values := by
  induction hreaches with
  | start hstart =>
      obtain ⟨htemperature, vertices, -, -, hvalues, -, hasks⟩ :=
        (leads_start_cold h.prices origin).of_ok hstart
      dsimp only at htemperature hvalues
      rw [htemperature, hvalues]
      exact ⟨h.isZero_temperature, vertices.reverse, hasks, sampled_reverse cost vertices⟩
  | pass hreaches hpass ih =>
      obtain ⟨hclock, requests, hasks, hsampled⟩ := ih
      obtain ⟨asked, hasks', hfollows, hclock'⟩ := h.follows hreaches hclock hasks hsampled hpass
      exact ⟨hclock', asked ++ requests, hasks.trans hasks',
        hfollows.updates.sampled_append hsampled⟩

omit [ZeroScalar α] in
theorem Reaches.attains_iff (h : Cold P origin cost log) (hreaches : Reaches P origin clock state s)
    (hsampled : Sampled cost requests state.values) :
    Attains cost requests state.values ↔ Covers cost requests state.values := by
  obtain ⟨hshaped, hn, -⟩ := hreaches.watched
  refine Annealing.attains_iff hsampled ?_ (by rw [hshaped.length_values]; omega)
  intro v hv
  obtain ⟨x, -, rfl⟩ := hsampled v hv
  exact h.prices.costs.defined x

/-- Without constraint and without noise the least value of the simplex is the least cost that
the run has asked for whenever a pass begins, if and only if no pass puts an expansion in the
place of a reflection that is better than the expansion and than all vertices. -/
theorem minimize_attains_iff (h : Cold P origin cost log) :
    (∀ clock state s, Reaches P origin clock state s → ∃ requests,
      log s.progress.oracle = requests ++ log origin.progress.oracle ∧
        Attains cost requests state.values) ↔
      ∀ clock state s next s', Reaches P origin clock state s →
        pass P clock state s = (.ok (some next), s') → ¬ Overwrites cost state.summed := by
  constructor
  · intro hattains clock state s next s' hreaches hpass
    have hcovers {clock : Clock α} {state : State α} {s : Session σ (Annealing ρ α) α}
        {requests : List (Vec α)} (hreaches : Reaches P origin clock state s)
        (hasks : Asks log requests origin s) (hsampled : Sampled cost requests state.values) :
        Covers cost requests state.values := by
      obtain ⟨requests', hlog, hattains⟩ := hattains clock state s hreaches
      rw [hasks.log_eq, List.append_left_inj] at hlog
      rw [← hreaches.attains_iff h hsampled, hlog]
      exact hattains
    obtain ⟨hclock, requests, hasks, hsampled⟩ := hreaches.sampled h
    obtain ⟨asked, hasks', hfollows, -⟩ := h.follows hreaches hclock hasks hsampled hpass
    have hcovered := hcovers hreaches hasks hsampled
    exact (hfollows.covers_append_iff hcovered).mp
      (hcovers (hreaches.pass hpass) (hasks.trans hasks')
        (hfollows.updates.sampled_append hsampled))
  · intro hnever clock state s hreaches
    have hcovers : ∃ requests, Asks log requests origin s ∧ Sampled cost requests state.values ∧
        Covers cost requests state.values := by
      induction hreaches with
      | start hstart =>
          obtain ⟨-, vertices, -, -, hvalues, -, hasks⟩ :=
            (leads_start_cold h.prices origin).of_ok hstart
          rw [hvalues]
          exact ⟨vertices.reverse, hasks, sampled_reverse cost vertices,
            covers_reverse h.prices.costs.defined vertices⟩
      | pass hreaches hpass ih =>
          obtain ⟨requests, hasks, hsampled, hcovers⟩ := ih
          obtain ⟨hclock, -⟩ := hreaches.sampled h
          obtain ⟨asked, hasks', hfollows, -⟩ := h.follows hreaches hclock hasks hsampled hpass
          exact ⟨asked ++ requests, hasks.trans hasks', hfollows.updates.sampled_append hsampled,
            (hfollows.covers_append_iff hcovers).mpr (hnever _ _ _ _ _ hreaches hpass)⟩
    obtain ⟨requests, hasks, hsampled, hcovers⟩ := hcovers
    exact ⟨requests, hasks.log_eq, (hreaches.attains_iff h hsampled).mpr hcovers⟩

/-! ## Landscapes -/

noncomputable def landscape (height : ℝ → ℝ) : Cost ℝ where
  value x := .ok (height (x.getD 0 0))
  values := none
  gradient := none
  jacobian := none
  step := Objective.usualStep

noncomputable def openLandscape (height : ℝ → ℝ) : Problem (List (Evaluation ℝ)) ℝ :=
  ⟨(landscape height).objective, Constraint.none.region⟩

noncomputable def fromZero : Session (List (Evaluation ℝ)) (Annealing Generator ℝ) ℝ where
  progress := .start [] [0]
  rule := ⟨4, 2, 1e-8, 1e-8, 1e-8, .running, 0, Nat.one_lt_two, by decide⟩
  memory := ⟨.counter 0, 1, 0, .constantFactor 0.1 10⟩

theorem cold_landscape (height : ℝ → ℝ) :
    Cold (openLandscape height) fromZero (landscape height).valueOrZero (List.map Cost.point) where
  prices := ⟨Cost.objective_costs fun _ => le_refl _, fun _ => rfl, fun _ => rfl⟩
  logsFinite _ := rfl
  isZero_temperature := same_real.mpr rfl
  cooling := ⟨_, _, rfl, rfl⟩

theorem initialVertices_landscape (height : ℝ → ℝ) :
    Simplex.initialVertices (openLandscape height).region fromZero.progress.point
      fromZero.memory.lambda = .ok [[0], [1]] := by
  have h : Simplex.initialVertices (openLandscape height).region fromZero.progress.point
      fromZero.memory.lambda = .ok [[0], [0 + 1 * 1]] := rfl
  rw [h, zero_add, one_mul]

theorem bears_landscape (height : ℝ → ℝ) (c : StoppingRule ℝ) :
    (openLandscape height).Bears
      (fun s : Session (List (Evaluation ℝ)) (Annealing Generator ℝ) ℝ => s.rule = c)
      (fun _ _ => False) where
  value _ _ h := h
  memory _ h := h

theorem exists_start_landscape (height : ℝ → ℝ) :
    ∃ clock state s, start (openLandscape height) fromZero = (.ok (clock, state), s) ∧
      state.vertices = [[0], [1]] ∧ state.values = [height 0, height 1] ∧ state.sum.length = 1 ∧
      clock.iteration = 0 ∧ s.rule = fromZero.rule.reset := by
  have hstarts : Leads (start (openLandscape height)) fromZero (fun _ _ => True)
      fun _ _ => False := by
    unfold start
    simp only [leads_bind, leads_reset, leads_get, leads_ite, leads_throw, leads_attempt]
    refine ⟨by rintro ⟨⟩, fun _ => ⟨by rintro ⟨⟩, fun _ => ?_⟩⟩
    have hvertices := initialVertices_landscape height
    dsimp only [Progress.reset]
    rw [hvertices]
    exact (upholds_mapM (upholds_evaluate (bears_landscape height _)) _ rfl).imp
      fun _ _ _ => trivial
  obtain ⟨⟨clock, state⟩, s, hstart, -⟩ := hstarts.exists_ok
  obtain ⟨-, vertices, hvertices, hvertices', hvalues, hsum, -⟩ :=
    (leads_start_cold (cold_landscape height).prices fromZero).of_ok hstart
  obtain ⟨hrule, hclock⟩ := (leads_start_rule fromZero).of_ok hstart
  rw [initialVertices_landscape] at hvertices
  cases hvertices
  exact ⟨clock, state, s, hstart, hvertices', hvalues, by rw [hsum]; rfl, hclock, hrule⟩

theorem leads_finished_landscape (size : ℝ)
    {s : Session (List (Evaluation ℝ)) (Annealing Generator ℝ) ℝ}
    (hrule : s.rule = fromZero.rule.reset) :
    Leads (finished 0 size) s (fun stops _ => stops = false) fun _ _ => False := by
  have hgoes (changed : Bool) :
      (fromZero.rule.reset.checkStationary changed .stationaryPoint).1 = false := by
    cases changed with
    | true => rfl
    | false => rfl
  unfold finished
  simp only [leads_bind, leads_check, hrule, StoppingRule.checkStationaryPoint, hgoes,
    Bool.false_eq_true, if_false]
  rw [StoppingRule.checkMaxIterations, if_pos (StoppingRule.maxIterations_pos _)]

theorem exists_pass_landscape (height : ℝ → ℝ) {clock : Clock ℝ} {state : State ℝ}
    {s : Session (List (Evaluation ℝ)) (Annealing Generator ℝ) ℝ}
    (hrule : s.rule = fromZero.rule.reset) (hclock : clock.iteration = 0) :
    ∃ next s', pass (openLandscape height) clock state s = (.ok (some next), s') := by
  have hpasses : Leads (pass (openLandscape height) clock state) s
      (fun next _ => ∃ made, next = some made) fun _ _ => False := by
    unfold pass
    refine (upholds_rank (bears_landscape height _) _ _ s hrule).bind fun r s₁ hrule₁ => ?_
    rw [hclock]
    refine (leads_finished_landscape _ hrule₁).bind ?_
    rintro _ s₂ rfl
    rw [if_neg Bool.false_ne_true, leads_bind]
    exact (upholds_moves (bears_landscape height _) _ r _ _ rfl).imp fun made _ _ => ⟨_, rfl⟩
  obtain ⟨_, s', hpass, made, rfl⟩ := hpasses.exists_ok
  exact ⟨made, s', hpass⟩

noncomputable def cliff (x : ℝ) : ℝ := if 1 < x then 0 else 1

theorem not_overwrites_cliff {state : State ℝ} {requests : List (Vec ℝ)}
    (hsampled : Sampled (landscape cliff).valueOrZero requests state.values) :
    ¬ Overwrites (landscape cliff).valueOrZero state.summed := by
  have hcost (x : Vec ℝ) : (landscape cliff).valueOrZero x = 0 ∨
      (landscape cliff).valueOrZero x = 1 := by
    change cliff (x.getD 0 0) = 0 ∨ cliff (x.getD 0 0) = 1
    unfold cliff
    split
    · exact .inl rfl
    · exact .inr rfl
  have hle (i : Nat) : state.values.getD i 0 ≤ 1 := by
    rcases Nat.lt_or_ge i state.values.length with hi | hi
    · obtain ⟨x, -, hx⟩ := hsampled _ (Simplex.getD_mem hi)
      rw [← hx]
      rcases hcost x with h | h
      · rw [h]
        exact zero_le_one
      · rw [h]
    · rw [List.getD_eq_default _ _ hi]
      exact zero_le_one
  rintro ⟨-, hworse, haccepted⟩
  have hbelow := haccepted.trans_le (hle _)
  rcases hcost (state.summed.expansion (landscape cliff).valueOrZero) with h | h
  · rw [h] at hworse
    rcases hcost state.summed.reflection with h' | h'
    · rw [h'] at hworse
      exact lt_irrefl _ hworse
    · rw [h'] at hworse
      exact not_le_of_gt hworse zero_le_one
  · rw [h] at hbelow
    exact lt_irrefl _ hbelow

theorem minimize_attains_cliff :
    Cold (openLandscape cliff) fromZero (landscape cliff).valueOrZero (List.map Cost.point) ∧
      (∃ clock state s next s', Reaches (openLandscape cliff) fromZero clock state s ∧
        pass (openLandscape cliff) clock state s = (.ok (some next), s')) ∧
      ∀ clock state s, Reaches (openLandscape cliff) fromZero clock state s → ∃ requests,
        s.progress.oracle.map Cost.point = requests ++ fromZero.progress.oracle.map Cost.point ∧
          Attains (landscape cliff).valueOrZero requests state.values := by
  have hcold := cold_landscape cliff
  refine ⟨hcold, ?_, (minimize_attains_iff hcold).mpr ?_⟩
  · obtain ⟨clock, state, s, hstart, -, -, -, hclock, hrule⟩ := exists_start_landscape cliff
    obtain ⟨next, s', hpass⟩ := exists_pass_landscape cliff hrule hclock
    exact ⟨clock, state, s, next, s', .start hstart, hpass⟩
  · intro clock state s next s' hreaches hpass
    obtain ⟨-, requests, -, hsampled⟩ := hreaches.sampled hcold
    exact not_overwrites_cliff hsampled

noncomputable def trough (x : ℝ) : ℝ :=
  if x < 0.5 then 2.0 else if x < 1.5 then 1 else if x < 2.5 then 0 else 1.5

theorem trialPoint_line (sum v factor : ℝ) :
    Simplex.trialPoint 1 [sum] [v] factor = [sum * (1 - factor) - v * (1 - factor - factor)] := by
  simp [Simplex.trialPoint, Vec.scale, Vec.sub]

section trough

variable {state : State ℝ}

theorem ranking_trough (hvalues : state.values = [trough 0, trough 1]) :
    NoisyRanking.of state.values = ⟨1, 0, 1, 2, 1⟩ := by
  have hzero : trough 0 = 2 := by norm_num [trough]
  have hone : trough 1 = 1 := by norm_num [trough]
  rw [hvalues, hzero, hone]
  exact if_pos (one_lt_two (α := ℝ))

theorem sum_summed_trough (hvertices : state.vertices = [[0], [1]])
    (hlength : state.sum.length = 1) : state.summed.sum = [1] := by
  have hsum : state.summed.sum = [0 + 0 + 1] := by
    rw [State.summed, hlength, hvertices]
    rfl
  rw [hsum, zero_add, zero_add]

theorem trial_summed_trough (hvertices : state.vertices = [[0], [1]])
    (hlength : state.sum.length = 1) : state.summed.trial 0 (-1) = [2] := by
  have hvertices' : state.summed.vertices = [[0], [1]] := hvertices
  rw [State.trial, sum_summed_trough hvertices hlength, hvertices']
  refine (trialPoint_line 1 0 (-1)).trans ?_
  norm_num

theorem overwrites_trough (hvertices : state.vertices = [[0], [1]])
    (hvalues : state.values = [trough 0, trough 1]) (hlength : state.sum.length = 1) :
    Overwrites (landscape trough).valueOrZero state.summed := by
  have hcost (a : ℝ) : (landscape trough).valueOrZero [a] = trough a := rfl
  have hzero : trough 0 = 2 := by norm_num [trough]
  have hone : trough 1 = 1 := by norm_num [trough]
  have htwo : trough 2 = 0 := by norm_num [trough]
  have hthree : trough 3 = 3 / 2 := by norm_num [trough]
  have hvertices' : state.summed.vertices = [[0], [1]] := hvertices
  have hvalues' : state.summed.values = [2, 1] := by
    rw [← hzero, ← hone]
    exact hvalues
  have hsum := sum_summed_trough hvertices hlength
  have hranking : NoisyRanking.of state.summed.values = ⟨1, 0, 1, 2, 1⟩ := ranking_trough hvalues
  have hreflection : state.summed.reflection = [2] := by
    rw [State.reflection, hranking]
    exact trial_summed_trough hvertices hlength
  have hexpansion : state.summed.expansion (landscape trough).valueOrZero = [3] := by
    rw [State.expansion, hranking, hreflection, State.trial, State.replace]
    dsimp only
    rw [hsum, hvertices']
    refine (trialPoint_line (1 + (2 - 0)) 2 2.0).trans ?_
    norm_num
  rw [Overwrites, hreflection, hexpansion, hranking, hvalues', hcost, hcost, htwo, hthree]
  norm_num

end trough

/-- The first pass reflects from 0 to 2, where the cost is 0, and puts the expansion to 3 in its
place, where the cost is 3/2. -/
theorem minimize_loses_reflection :
    ∃ clock state s, Reaches (openLandscape trough) fromZero clock state s ∧
      ¬ ∃ requests,
        s.progress.oracle.map Cost.point = requests ++ fromZero.progress.oracle.map Cost.point ∧
          Attains (landscape trough).valueOrZero requests state.values := by
  have hcold := cold_landscape trough
  obtain ⟨clock, state, s, hstart, hvertices, hvalues, hsum, hclock, hrule⟩ :=
    exists_start_landscape trough
  obtain ⟨⟨clock', state'⟩, s', hpass⟩ := exists_pass_landscape trough hrule hclock
  have hreaches := Reaches.start hstart
  obtain ⟨hzero, requests, hasks, hsampled⟩ := hreaches.sampled hcold
  obtain ⟨asked, hasks', hfollows, -⟩ := hcold.follows hreaches hzero hasks hsampled hpass
  refine ⟨clock', state', s', hreaches.pass hpass, ?_⟩
  rintro ⟨requests', hlog, v, hv, -, -, hleast⟩
  obtain ⟨x, hx, hbelow⟩ := hfollows.loses (overwrites_trough hvertices hvalues hsum)
  rw [(hasks.trans hasks').log_eq, List.append_left_inj] at hlog
  have hle := hleast x (hlog ▸ List.mem_append_left _ hx)
  exact not_le_of_gt (hbelow v hv) hle

end Annealing

end Minima
