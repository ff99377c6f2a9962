import Minima.Proofs.Annealing.Outcome
import Minima.Proofs.Annealing.Ranking
import Minima.Proofs.Mirrors

/-!
# Iterations of simulated annealing

Iterations are to count the points that moves and shrinks evaluate.  Points outside the region
count as well, though the objective never hears of them.  They are listed by an objective that is
asked everywhere and answers for the region itself.
-/

namespace Minima

variable {ρ σ α : Type} [Scalar α]

/-- The same problem with the region left to the objective, which lists all points. -/
def Problem.watched (P : Problem σ α) : Problem (σ × List (Vec α)) α where
  objective := { P.objective.traced with
    value x := asked x fun o =>
      if P.region.contains x then P.objective.value x o else (.ok Scalar.largest, o) }
  region := { P.region with contains := fun _ => true }

namespace Annealing

variable {P : Problem σ α} {k n : Nat} {cold : α} {state : State α}
  {s : Session σ (Annealing ρ α) α} {s' : Session (σ × List (Vec α)) (Annealing ρ α) α}

/-- The session of the same run on the watched problem, after `k` points. -/
structure Watches (k : Nat) (s : Session σ (Annealing ρ α) α)
    (s' : Session (σ × List (Vec α)) (Annealing ρ α) α) : Prop where
  oracle_eq : s'.progress.oracle.1 = s.progress.oracle
  rule_eq : s'.rule = s.rule
  memory_eq : s'.memory = s.memory
  length_eq : s'.progress.oracle.2.length = k

/-! ## Simplices -/

theorem values_record (state : State α) (x : Vec α) (value : α) :
    (state.record x value).values = state.values := by
  unfold State.record
  split
  · rfl
  · rfl

theorem vertices_record (state : State α) (x : Vec α) (value : α) :
    (state.record x value).vertices = state.vertices := by
  unfold State.record
  split
  · rfl
  · rfl

theorem sum_record (state : State α) (x : Vec α) (value : α) :
    (state.record x value).sum = state.sum := by
  unfold State.record
  split
  · rfl
  · rfl

theorem simplex_foldl_record (state : State α) (entries : List (Vec α × α)) :
    (entries.foldl (fun s (v, value) => s.record v value) state).values = state.values ∧
      (entries.foldl (fun s (v, value) => s.record v value) state).vertices = state.vertices ∧
      (entries.foldl (fun s (v, value) => s.record v value) state).sum = state.sum := by
  induction entries generalizing state with
  | nil => exact ⟨rfl, rfl, rfl⟩
  | cons entry entries ih =>
      obtain ⟨hvalues, hvertices, hsum⟩ := ih (state.record entry.1 entry.2)
      exact ⟨hvalues.trans (values_record _ _ _), hvertices.trans (vertices_record _ _ _),
        hsum.trans (sum_record _ _ _)⟩

structure State.Shaped (state : State α) (n : Nat) : Prop where
  length_vertices : state.vertices.length = n + 1
  length_values : state.values.length = n + 1

theorem State.Shaped.record (h : state.Shaped n) (x : Vec α) (value : α) :
    (state.record x value).Shaped n :=
  ⟨by rw [vertices_record, h.length_vertices], by rw [values_record, h.length_values]⟩

/-! ## Moves -/

theorem mirrors_evaluate (h : Watches k s s') (x : Vec α) :
    Mirrors (evaluate P x) (evaluate P.watched x) s s' (fun _ => Watches (k + 1))
      (fun _ _ _ => True) := by
  have hvalue : P.watched.objective.value x s'.progress.oracle =
      if P.region.contains x then ((P.objective.value x s.progress.oracle).1,
        (P.objective.value x s.progress.oracle).2, x :: s'.progress.oracle.2)
      else (.ok Scalar.largest, s.progress.oracle, x :: s'.progress.oracle.2) := by
    simp only [Problem.watched, asked, h.oracle_eq]
    cases P.region.contains x <;> rfl
  have hlength : (x :: s'.progress.oracle.2).length = k + 1 := congrArg (· + 1) h.length_eq
  unfold evaluate
  rw [if_pos (show P.watched.region.contains x = true from rfl)]
  cases hcontains : P.region.contains x with
  | false =>
      rw [hcontains, if_neg Bool.false_ne_true] at hvalue
      rw [if_neg Bool.false_ne_true]
      unfold Mirrors
      rw [bind_apply, work_value_apply, hvalue]
      exact ⟨(ite_self _).symm, rfl, h.rule_eq, h.memory_eq, hlength⟩
  | true =>
      rw [hcontains, if_pos rfl] at hvalue
      rw [if_pos rfl]
      refine Mirrors.bind (M := fun _ => Watches (k + 1)) ?_ fun v t t' ht => ⟨rfl, ht⟩
      unfold Mirrors
      rw [work_value_apply, work_value_apply, hvalue]
      cases (P.objective.value x s.progress.oracle).1 with
      | ok v => exact ⟨rfl, rfl, h.rule_eq, h.memory_eq, hlength⟩
      | error e => exact ⟨rfl, trivial⟩

theorem mirrors_shrink (lowest : Nat) (places : List Nat) (hshaped : state.Shaped n)
    (h : Watches k s s') :
    Mirrors (shrink P lowest places state) (shrink P.watched lowest places state) s s'
      (fun made t t' => made.Shaped n ∧
        Watches (k + (places.filter (· != lowest)).length) t t') (fun _ _ _ => True) := by
  induction places generalizing state k s s' with
  | nil => exact ⟨rfl, hshaped, h⟩
  | cons i places ih =>
      unfold shrink
      rw [mirrors_ite]
      refine ⟨fun hlowest => ?_, fun hother => ?_⟩
      · rw [List.filter_cons_of_neg (by simpa using hlowest)]
        exact ih hshaped h
      · rw [List.filter_cons_of_pos (by simpa using hother), List.length_cons,
          Nat.add_comm _ 1, ← Nat.add_assoc]
        refine (mirrors_evaluate h _).bind fun value t t' ht => ih ?_ ht
        have hrecorded := hshaped.record (Vec.scale 0.5 (Vec.add (state.vertices.getD i [])
          (state.vertices.getD lowest []))) value
        exact ⟨by rw [List.length_set, hrecorded.length_vertices],
          by rw [List.length_set, hrecorded.length_values]⟩

theorem length_places {lowest : Nat} (h : lowest < n + 1) :
    ((List.range (n + 1)).filter (· != lowest)).length = n := by
  rw [← List.nodup_range.erase_eq_filter, List.length_erase_of_mem (List.mem_range.mpr h),
    List.length_range, Nat.add_sub_cancel]

variable [RandomSource ρ]

theorem mirrors_noise {stop : Failure α → Session σ (Annealing ρ α) α →
      Session (σ × List (Vec α)) (Annealing ρ α) α → Prop} (h : Watches k s s') (cold : α) :
    Mirrors (noise cold) (noise cold) s s' (fun _ => Watches k) stop := by
  unfold noise draw
  refine Mirrors.bind (M := fun _ => Watches k) ?_ fun u t t' ht => ⟨rfl, ht⟩
  refine ⟨?_, h.oracle_eq, h.rule_eq, ?_, h.length_eq⟩
  · rw [h.memory_eq]
  · dsimp only
    rw [h.memory_eq]

theorem mirrors_tryMove (hshaped : state.Shaped n) (h : Watches k s s') (r : NoisyRanking α)
    (factor : α) :
    Mirrors (tryMove P cold r factor state) (tryMove P.watched cold r factor state) s s'
      (fun made t t' => made.2.Shaped n ∧ Watches (k + 1) t t') (fun _ _ _ => True) := by
  unfold tryMove
  dsimp only
  refine (mirrors_evaluate h _).bind fun value t t' ht => ?_
  have hrecorded := hshaped.record (Simplex.trialPoint state.sum.length state.sum
    (state.vertices.getD r.highest []) factor) value
  refine (mirrors_noise ht cold).bind fun drawn u u' hu => ?_
  rw [mirrors_ite]
  refine ⟨fun _ => ⟨rfl, ⟨?_, ?_⟩, hu⟩, fun _ => ⟨rfl, hrecorded, hu⟩⟩
  · rw [List.length_set, hrecorded.length_vertices]
  · rw [List.length_set, hrecorded.length_values]

theorem mirrors_moves (hshaped : state.Shaped n) (h : Watches k s s') {r : NoisyRanking α}
    (hlowest : r.lowest < n + 1) :
    Mirrors (moves P cold r state) (moves P.watched cold r state) s s'
      (fun made t t' => made.2.Shaped n ∧ made.1 ≤ n + 2 ∧ Watches (k + made.1) t t')
      (fun _ _ _ => True) := by
  unfold moves
  refine (mirrors_tryMove hshaped h r (-1)).bind ?_
  rintro ⟨reflected, state₁⟩ t t' ⟨hshaped₁, ht⟩
  rw [mirrors_ite]
  refine ⟨fun _ => ?_, fun _ => mirrors_ite.mpr ⟨fun _ => ?_, fun _ => ?_⟩⟩
  · refine (mirrors_tryMove hshaped₁ ht r 2.0).bind ?_
    rintro ⟨expanded, state₂⟩ u u' ⟨hshaped₂, hu⟩
    exact ⟨rfl, hshaped₂, by omega, hu⟩
  · refine (mirrors_tryMove hshaped₁ ht r 0.5).bind ?_
    rintro ⟨contracted, state₂⟩ u u' ⟨hshaped₂, hu⟩
    rw [mirrors_ite]
    refine ⟨fun _ => ?_, fun _ => ⟨rfl, hshaped₂, by omega, hu⟩⟩
    refine (mirrors_shrink r.lowest _ hshaped₂ hu).bind ?_
    rintro state₃ v v' ⟨hshaped₃, hv⟩
    rw [hshaped₂.length_vertices, length_places hlowest] at hv
    rw [hshaped₃.length_vertices]
    refine ⟨rfl, hshaped₃, by dsimp only; omega, ?_⟩
    rwa [Nat.add_sub_cancel, ← Nat.add_assoc]
  · exact ⟨rfl, hshaped₁, by omega, ht⟩

/-! ## Passes -/

theorem mirrors_rank (hshaped : state.Shaped n) (h : Watches k s s') (hn : 0 < n) (cold : α) :
    Mirrors (rank cold state.values) (rank cold state.values) s s'
      (fun r t t' => r.lowest < n + 1 ∧ Watches k t t') (fun _ _ _ => True) := by
  have hnoisy : Mirrors (state.values.mapM fun value => do return value + (← noise cold))
      (state.values.mapM fun value => do return value + (← noise cold)) s s'
      (fun noisy t t' => noisy.length = state.values.length ∧ Watches k t t')
      (fun _ _ _ => True) :=
    mirrors_mapM (fun value t t' ht => (mirrors_noise ht cold).bind fun _ _ _ hu => ⟨rfl, hu⟩) h
  unfold rank
  refine hnoisy.bind ?_
  rintro noisy t t' ⟨hlength, ht⟩
  rw [hshaped.length_values] at hlength
  exact ⟨rfl, hlength ▸ NoisyRanking.lowest_of_lt (by omega), ht⟩

omit [Scalar α] [RandomSource ρ] in
theorem mirrors_check (h : Watches k s s') (c : StoppingRule α → Bool × StoppingRule α) :
    Mirrors (Run.check c) (Run.check c) s s' (fun _ => Watches k) (fun _ _ _ => True) := by
  refine ⟨?_, h.oracle_eq, ?_, h.memory_eq, h.length_eq⟩
  · rw [h.rule_eq]
  · dsimp only
    rw [h.rule_eq]

omit [RandomSource ρ] in
theorem mirrors_finished (h : Watches k s s') (iteration : Nat) (size : α) :
    Mirrors (finished iteration size) (finished iteration size) s s' (fun _ => Watches k)
      (fun _ _ _ => True) := by
  unfold finished
  refine (mirrors_check h _).bind fun still t t' ht => ?_
  rw [mirrors_ite]
  exact ⟨fun _ => ⟨rfl, ht⟩, fun _ => mirrors_check ht _⟩

/-- The points that a pass evaluates are its iterations. -/
theorem mirrors_pass {clock : Clock α} (hshaped : state.Shaped n) (hn : 0 < n)
    (h : Watches clock.iteration s s') :
    Mirrors (pass P clock state) (pass P.watched clock state) s s'
      (fun next t t' => ∀ clock' state', next = some (clock', state') → state'.Shaped n ∧
        clock'.iteration ≤ clock.iteration + (n + 2) ∧ Watches clock'.iteration t t')
      (fun _ _ _ => True) := by
  unfold pass
  refine (mirrors_rank hshaped h hn _).bind ?_
  rintro r t t' ⟨hlowest, ht⟩
  refine (mirrors_finished ht _ _).bind fun stop u u' hu => ?_
  rw [mirrors_ite]
  refine ⟨fun _ => ?_, fun _ => ?_⟩
  · exact ⟨rfl, nofun⟩
  · have hsummed : State.Shaped
        { state with sum := Simplex.sumOf state.sum.length state.vertices } n :=
      ⟨hshaped.length_vertices, hshaped.length_values⟩
    refine (mirrors_moves hsummed hu hlowest).bind ?_
    rintro ⟨spent, next⟩ v v' ⟨hshaped', hspent, hv⟩
    rw [mirrors_get_bind, hv.memory_eq]
    refine ⟨rfl, ?_⟩
    rintro clock' state' ⟨⟩
    rw [iteration_advance]
    exact ⟨hshaped', by omega, hv⟩

/-! ## Runs -/

omit [RandomSource ρ] in
theorem leads_start_laid (origin : Session σ (Annealing ρ α) α) :
    Leads (start P) origin
      (fun first _ => first.1.iteration = 0 ∧ 0 < origin.progress.point.length ∧
        P.region.contains origin.progress.point = true ∧
        Simplex.initialVertices P.region origin.progress.point origin.memory.lambda =
          .ok first.2.vertices ∧
        first.2.values.length = first.2.vertices.length ∧
        first.2.sum = Vec.zeros origin.progress.point.length)
      (fun _ _ => True) := by
  unfold start
  simp only [leads_bind, leads_reset, leads_get, leads_ite, leads_throw, leads_attempt,
    Progress.reset]
  refine ⟨fun _ => trivial, fun hempty => ⟨fun _ => trivial, fun hin => ?_⟩⟩
  have hcontains : P.region.contains origin.progress.point = true := by simpa using hin
  have hpos : 0 < origin.progress.point.length := by
    rw [List.length_pos_iff]
    simpa using hempty
  cases Simplex.initialVertices P.region origin.progress.point origin.memory.lambda with
  | error e => trivial
  | ok vertices =>
      refine (leads_mapM (R := fun _ _ => True) (K := fun _ => True) (fun x _ s _ =>
        (leads_true (evaluate P x) s).imp fun _ _ _ => ⟨trivial, trivial⟩) trivial).imp ?_
      rintro values s' ⟨hmade, -⟩
      obtain ⟨hvalues, hvertices, hsum⟩ := simplex_foldl_record (⟨vertices, values,
        Vec.zeros origin.progress.point.length, origin.progress.point, Scalar.largest⟩ : State α)
        (vertices.zip values)
      refine ⟨rfl, hpos, hcontains, congrArg Except.ok hvertices.symm, ?_, hsum⟩
      rw [hvalues, hvertices]
      exact hmade.length_eq.symm

omit [RandomSource ρ] in
theorem leads_start_shaped (origin : Session σ (Annealing ρ α) α) :
    Leads (start P) origin
      (fun first _ => first.1.iteration = 0 ∧ first.2.Shaped origin.progress.point.length ∧
        0 < origin.progress.point.length) (fun _ _ => True) := by
  refine (leads_start_laid origin).imp ?_
  rintro first s' ⟨hclock, hpos, hcontains, hvertices, hvalues, -⟩
  obtain ⟨hlength, -⟩ := Simplex.initialVertices_eq_ok hcontains hvertices
  exact ⟨hclock, ⟨hlength, hvalues.trans hlength⟩, hpos⟩

def watchedSession (s : Session σ (Annealing ρ α) α) :
    Session (σ × List (Vec α)) (Annealing ρ α) α :=
  ⟨s.progress.logged, s.rule, s.memory⟩

/-- The clocks and states with which the passes of a run begin whose points are listed once its
simplex is laid out. -/
inductive Watched (P : Problem σ α) (origin : Session σ (Annealing ρ α) α) :
    Clock α → State α → Session (σ × List (Vec α)) (Annealing ρ α) α → Prop
  | start {clock : Clock α} {state : State α} {s : Session σ (Annealing ρ α) α} :
      start P origin = (.ok (clock, state), s) → Watched P origin clock state (watchedSession s)
  | pass {clock next : Clock α} {state state' : State α}
      {s s' : Session (σ × List (Vec α)) (Annealing ρ α) α} :
      Watched P origin clock state s →
        pass P.watched clock state s = (.ok (some (next, state')), s') →
        Watched P origin next state' s'

variable {origin : Session σ (Annealing ρ α) α} {clock : Clock α}

theorem Reaches.watched (h : Reaches P origin clock state s) :
    state.Shaped origin.progress.point.length ∧ 0 < origin.progress.point.length ∧
      ∃ s', Watched P origin clock state s' ∧ Watches clock.iteration s s' := by
  induction h with
  | @start clock state s hstart =>
      obtain ⟨hclock, hshaped, hpos⟩ := (leads_start_shaped origin).of_ok hstart
      rw [show clock.iteration = 0 from hclock]
      exact ⟨hshaped, hpos, _, .start hstart, rfl, rfl, rfl, rfl⟩
  | pass _ hpass ih =>
      obtain ⟨hshaped, hpos, t, hwatched, hwatches⟩ := ih
      obtain ⟨t', hpass', hnext⟩ := (mirrors_pass hshaped hpos hwatches).of_ok hpass
      obtain ⟨hshaped', -, hwatches'⟩ := hnext _ _ rfl
      exact ⟨hshaped', hpos, t', .pass hwatched hpass', hwatches'⟩

theorem Reaches.budgeted (h : Reaches P origin clock state s) :
    s.rule.outcome = .running ∧ s.rule.maxIterations = origin.rule.maxIterations ∧
      clock.iteration ≤ origin.rule.maxIterations + origin.progress.point.length + 1 := by
  induction h with
  | @start clock state s hstart =>
      obtain ⟨hrule, hclock⟩ := (leads_start_rule origin).of_ok hstart
      rw [show clock.iteration = 0 from hclock, hrule]
      exact ⟨rfl, rfl, Nat.zero_le _⟩
  | pass hreaches hpass ih =>
      obtain ⟨hrunning, hbudget, -⟩ := ih
      obtain ⟨hshaped, hpos, t, -, hwatches⟩ := hreaches.watched
      obtain ⟨t', -, hnext⟩ := (mirrors_pass hshaped hpos hwatches).of_ok hpass
      obtain ⟨-, hspent, -⟩ := hnext _ _ rfl
      obtain ⟨-, hrunning', hbudget', hlt, -⟩ :=
        (leads_pass_concludes hreaches hrunning hbudget).of_ok hpass
      exact ⟨hrunning', hbudget', by omega⟩

/-- The iterations with which a pass begins are the points that the passes before it have
evaluated.  The passes of a run never run out before it ends, and where it ends for its budget,
it has exceeded that by what the moves of one pass take. -/
theorem minimize_counts (P : Problem σ α) (origin : Session σ (Annealing ρ α) α) :
    (∀ clock state s, Reaches P origin clock state s →
      ∃ s', Watched P origin clock state s' ∧ s'.progress.oracle.1 = s.progress.oracle ∧
        s'.rule = s.rule ∧ s'.memory = s.memory ∧
        s'.progress.oracle.2.length = clock.iteration) ∧
      ∀ o s', minimize P origin = (.ok o, s') →
        ∃ clock state s, Reaches P origin clock state s ∧ pass P clock state s = (.ok none, s') ∧
          (o = .maxIterations → origin.rule.maxIterations ≤ clock.iteration ∧
            clock.iteration ≤ origin.rule.maxIterations + origin.progress.point.length + 1) := by
  constructor
  · intro clock state s hreaches
    obtain ⟨-, -, s', hwatched, hwatches⟩ := hreaches.watched
    exact ⟨s', hwatched, hwatches.oracle_eq, hwatches.rule_eq, hwatches.memory_eq,
      hwatches.length_eq⟩
  · intro o s' hrun
    obtain ⟨-, last, still, hends, ho, hbudget⟩ := (leads_minimize_outcome origin).of_ok hrun
    obtain ⟨clock, state, s, r, s₁, t, hreaches, rfl, -, -, hpass⟩ := hends
    refine ⟨clock, state, s, hreaches, hpass, fun hmax => ⟨?_, hreaches.budgeted.2.2⟩⟩
    refine hbudget ?_
    cases still with
    | true => cases ho.symm.trans hmax
    | false => rfl

end Annealing

end Minima
