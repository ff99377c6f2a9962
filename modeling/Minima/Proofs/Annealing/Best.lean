import Minima.Annealing
import Minima.Proofs.Simplex.Lowest
import Minima.Random.Generator

/-!
# The best point of an annealing run

Noise decides which vertices a run keeps, so that the simplex may lose its best vertex.
Every evaluation records its value without noise beside the simplex, and of the
recorded points the best one is what the run returns.
-/

namespace Minima.Annealing

open OrderedScalar
open Simplex (terraces terraces_defined boxedTerraces)

variable {ρ σ α : Type} [Scalar α] {P : Problem σ α} {contains : Vec α → Bool}
  {cost : Vec α → Checked α α} {log : σ → List (Vec α)} {earlier requests : List (Vec α)}
  {start x : Vec α} {value cold : α} {s : Session σ (Annealing ρ α) α} {state : State α}

/-! ## The record -/

/-- `value` stands for the cost at `x`: below the largest number it is the cost of a feasible
point, and no cost below that number is missed. -/
structure Appraises (contains : Vec α → Bool) (cost : Vec α → Checked α α) (x : Vec α)
    (value : α) : Prop where
  of_lt : value < Scalar.largest → contains x = true ∧ cost x = .ok value
  eq_of_lt {v : α} : contains x = true → cost x = .ok v → v < Scalar.largest → value = v

/-- Of the requested points with a cost below the largest number the state has recorded one
with the least cost. -/
structure Tracks (cost : Vec α → Checked α α) (requests : List (Vec α)) (s : State α) : Prop where
  le_largest : (Scalar.largest : α) ≤ Scalar.largest → s.bestValue ≤ Scalar.largest
  best : s.bestValue < Scalar.largest → s.best ∈ requests ∧ cost s.best = .ok s.bestValue
  least {x : Vec α} {v : α} : x ∈ requests → cost x = .ok v → v < Scalar.largest →
    s.bestValue ≤ v

theorem reverse_filter_cons_append {β : Type} (p : β → Bool) (x : β) (rest requests : List β) :
    ((x :: rest).filter p).reverse ++ requests =
      (rest.filter p).reverse ++ ([x].filter p ++ requests) := by
  cases hp : p x with
  | true => simp [hp]
  | false => simp [hp]

variable [OrderedScalar α]

theorem Tracks.empty (h : state.bestValue = Scalar.largest) : Tracks cost [] state where
  le_largest hlargest := by rwa [h]
  best hlt := by
    rw [h] at hlt
    exact absurd hlt (not_lt_self _)
  least := nofun

theorem Tracks.record (h : Tracks cost requests state) (hx : Appraises contains cost x value) :
    Tracks cost ([x].filter contains ++ requests) (state.record x value) := by
  unfold State.record
  split
  · rename_i hbetter
    obtain ⟨hlt, hle⟩ := hbetter
    obtain ⟨hcontains, hcost⟩ := hx.of_lt hlt
    rw [List.filter_singleton, hcontains]
    refine ⟨fun _ => le_of_lt hlt, fun _ => ⟨List.mem_cons_self, hcost⟩, ?_⟩
    intro y v hy hv hvlt
    rcases List.mem_cons.mp hy with rfl | hy
    · rw [hx.eq_of_lt hcontains hv hvlt]
      exact le_refl_left (le_of_lt hvlt)
    · exact le_trans hle (h.least hy hv hvlt)
  · rename_i hnot
    refine ⟨h.le_largest, fun hlt => ?_, ?_⟩
    · obtain ⟨hmem, hcost⟩ := h.best hlt
      exact ⟨List.mem_append_right _ hmem, hcost⟩
    · intro y v hy hv hvlt
      rcases List.mem_append.mp hy with hy | hy
      · obtain ⟨hmem, hcontains⟩ := List.mem_filter.mp hy
        obtain rfl := List.mem_singleton.mp hmem
        obtain rfl := hx.eq_of_lt hcontains hv hvlt
        have hlargest : (Scalar.largest : α) ≤ Scalar.largest := le_refl_right (le_of_lt hvlt)
        refine le_of_not_lt (le_refl_left (le_of_lt hvlt))
          (le_refl_left (h.le_largest hlargest)) fun hbetter => ?_
        exact hnot ⟨hvlt, le_of_lt hbetter⟩
      · exact h.least hy hv hvlt

theorem Tracks.foldl_record {vertices : List (Vec α)} {values : List α}
    (h : Tracks cost requests state)
    (hvalues : List.Forall₂ (Appraises contains cost) vertices values) :
    Tracks cost ((vertices.filter contains).reverse ++ requests)
      ((vertices.zip values).foldl (fun s (v, value) => s.record v value) state) := by
  induction hvalues generalizing requests state with
  | nil => exact h
  | @cons x value vertices values hx _ ih =>
      rw [reverse_filter_cons_append, List.zip_cons_cons, List.foldl_cons]
      exact ih (h.record hx)

/-- The least of all defined costs, whether below the largest number or not. -/
theorem Tracks.le {v w : α} (h : Tracks cost requests state) {y : Vec α} (hx : x ∈ requests)
    (hv : cost x = .ok v) (hlt : v < Scalar.largest) (hy : y ∈ requests) (hw : cost y = .ok w)
    (hdefined : w ≤ w) : state.bestValue ≤ w := by
  by_cases hwlt : w < Scalar.largest
  · exact h.least hy hw hwlt
  · have hlargest : (Scalar.largest : α) ≤ w :=
      le_of_not_lt hdefined (le_refl_right (le_of_lt hlt)) hwlt
    exact le_trans (h.least hx hv hlt) (le_trans (le_of_lt hlt) hlargest)

/-! ## Sessions -/

/-- Since the earlier requests the run has asked in the region only, at `start` among others,
and the state has recorded the best answer. -/
def Searches (P : Problem σ α) (cost : Vec α → Checked α α) (log : σ → List (Vec α))
    (earlier : List (Vec α)) (start : Vec α) (s : Session σ (Annealing ρ α) α)
    (state : State α) : Prop :=
  ∃ requests, log s.progress.oracle = requests ++ earlier ∧
    (∀ x ∈ requests, P.region.contains x = true) ∧ start ∈ requests ∧ Tracks cost requests state

/-- The run has asked in the region only, and stopped because its last request failed. -/
def Fails (P : Problem σ α) (cost : Vec α → Checked α α) (log : σ → List (Vec α))
    (earlier : List (Vec α)) (e : Failure α) (s : Session σ (Annealing ρ α) α) : Prop :=
  ∃ x requests, log s.progress.oracle = x :: requests ++ earlier ∧ cost x = .error e ∧
    ∀ y ∈ x :: requests, P.region.contains y = true

def Returns (P : Problem σ α) (cost : Vec α → Checked α α) (log : σ → List (Vec α))
    (earlier : List (Vec α)) (start : Vec α) (s : Session σ (Annealing ρ α) α) : Prop :=
  ∃ state, Searches P cost log earlier start s state ∧ s.progress.point = state.best ∧
    s.progress.value = some state.bestValue

omit [OrderedScalar α] in
theorem Searches.congr {s' : Session σ (Annealing ρ α) α} {state' : State α}
    (h : Searches P cost log earlier start s state) (hprogress : s'.progress = s.progress)
    (hbest : state'.best = state.best) (hvalue : state'.bestValue = state.bestValue) :
    Searches P cost log earlier start s' state' := by
  obtain ⟨requests, hlog, hfeasible, hstart, htracks⟩ := h
  refine ⟨requests, by rw [hprogress, hlog], hfeasible, hstart, ?_⟩
  constructor
  · rw [hvalue]
    exact htracks.le_largest
  · rw [hbest, hvalue]
    exact htracks.best
  · rw [hvalue]
    exact htracks.least

theorem leads_evaluate (logs : P.objective.Logs log)
    (hcost : ∀ x o, (P.objective.value x o).1 = cost x) (x : Vec α)
    (s : Session σ (Annealing ρ α) α) :
    Leads (evaluate P x) s
      (fun v s' => Appraises P.region.contains cost x v ∧ s'.rule = s.rule ∧
        log s'.progress.oracle = [x].filter P.region.contains ++ log s.progress.oracle)
      (fun e s' => log s'.progress.oracle = x :: log s.progress.oracle ∧ cost x = .error e ∧
        P.region.contains x = true) := by
  unfold evaluate
  cases hcontains : P.region.contains x with
  | false =>
      rw [if_neg (by simp), List.filter_singleton, hcontains]
      refine ⟨⟨fun hlt => absurd hlt (not_lt_self _), ?_⟩, rfl, rfl⟩
      intro v hx
      rw [hcontains] at hx
      contradiction
  | true =>
      rw [if_pos rfl, List.filter_singleton, hcontains, leads_bind]
      refine (leads_logged logs x s).mono ?_ ?_
      · rintro v s₁ ⟨hv, hlog, hrule, -⟩
        rw [hcost] at hv
        refine ⟨⟨fun hlt => ?_, fun _ hw hlt => ?_⟩, hrule, hlog⟩
        · split at hlt
          · exact absurd hlt (not_lt_self _)
          · rename_i hdefined
            rw [if_neg hdefined]
            exact ⟨hcontains, hv⟩
        · rw [hv] at hw
          cases hw
          have hdefined : v ≤ v := le_refl_left (le_of_lt hlt)
          rw [if_neg (by simp [Scalar.isUndefined, hdefined])]
      · rintro e s₁ ⟨he, hlog, -, -⟩
        rw [hcost] at he
        exact ⟨hlog, he, rfl⟩

theorem leads_evaluate_record (logs : P.objective.Logs log)
    (hcost : ∀ x o, (P.objective.value x o).1 = cost x)
    (h : Searches P cost log earlier start s state) (x : Vec α) :
    Leads (evaluate P x) s
      (fun v s' => Searches P cost log earlier start s' (state.record x v) ∧ s'.rule = s.rule)
      (Fails P cost log earlier) := by
  obtain ⟨requests, hlog, hfeasible, hstart, htracks⟩ := h
  refine (leads_evaluate logs hcost x s).mono ?_ ?_
  · rintro v s₁ ⟨hv, hrule, hlog₁⟩
    refine ⟨⟨[x].filter P.region.contains ++ requests, ?_, ?_, ?_, htracks.record hv⟩, hrule⟩
    · rw [hlog₁, hlog, List.append_assoc]
    · intro y hy
      rcases List.mem_append.mp hy with hy | hy
      · exact (List.mem_filter.mp hy).2
      · exact hfeasible y hy
    · exact List.mem_append_right _ hstart
  · rintro e s₁ ⟨hlog₁, he, hx⟩
    exact ⟨x, requests, by rw [hlog₁, hlog, List.cons_append], he,
      List.forall_mem_cons.mpr ⟨hx, hfeasible⟩⟩

theorem leads_mapM_evaluate (logs : P.objective.Logs log)
    (hcost : ∀ x o, (P.objective.value x o).1 = cost x) {requests vertices : List (Vec α)}
    (hlog : log s.progress.oracle = requests ++ earlier)
    (hfeasible : ∀ x ∈ requests, P.region.contains x = true) :
    Leads (vertices.mapM (evaluate P)) s
      (fun values s' => List.Forall₂ (Appraises P.region.contains cost) vertices values ∧
        s'.rule = s.rule ∧ log s'.progress.oracle =
          (vertices.filter P.region.contains).reverse ++ log s.progress.oracle)
      (Fails P cost log earlier) := by
  induction vertices generalizing s requests with
  | nil => exact ⟨.nil, rfl, rfl⟩
  | cons x vertices ih =>
      rw [List.mapM_cons, leads_bind]
      refine (leads_evaluate logs hcost x s).mono ?_ ?_
      · rintro v s₁ ⟨hv, hrule₁, hlog₁⟩
        have hfilter : ∀ y ∈ [x].filter P.region.contains ++ requests,
            P.region.contains y = true := by
          intro y hy
          rcases List.mem_append.mp hy with hy | hy
          · exact (List.mem_filter.mp hy).2
          · exact hfeasible y hy
        rw [leads_bind]
        refine (ih (by rw [hlog₁, hlog, List.append_assoc]) hfilter).imp ?_
        rintro values s₂ ⟨hvalues, hrule₂, hlog₂⟩
        refine ⟨.cons hv hvalues, hrule₂.trans hrule₁, ?_⟩
        rw [hlog₂, hlog₁, reverse_filter_cons_append]
      · rintro e s₁ ⟨hlog₁, he, hx⟩
        exact ⟨x, requests, by rw [hlog₁, hlog, List.cons_append], he,
          List.forall_mem_cons.mpr ⟨hx, hfeasible⟩⟩

/-! ## Moves -/

theorem leads_shrink (logs : P.objective.Logs log)
    (hcost : ∀ x o, (P.objective.value x o).1 = cost x) (lowest : Nat) (places : List Nat)
    (h : Searches P cost log earlier start s state) :
    Leads (shrink P lowest places state) s
      (fun made s' => Searches P cost log earlier start s' made ∧ s'.rule = s.rule)
      (Fails P cost log earlier) := by
  induction places generalizing s state with
  | nil => exact ⟨h, rfl⟩
  | cons i places ih =>
      unfold shrink
      rw [leads_ite]
      refine ⟨fun _ => ih h, fun _ => ?_⟩
      dsimp only
      refine (leads_evaluate_record logs hcost h _).bind ?_
      rintro v s₁ ⟨h₁, hrule₁⟩
      refine (ih ?_).imp ?_
      · exact h₁.congr rfl rfl rfl
      · exact fun made s₂ h₂ => ⟨h₂.1, h₂.2.trans hrule₁⟩

variable [RandomSource ρ]

omit [OrderedScalar α] in
theorem leads_noise (cold : α) (s : Session σ (Annealing ρ α) α)
    {stop : Failure α → Session σ (Annealing ρ α) α → Prop} :
    Leads (noise cold) s (fun _ s' => s'.progress = s.progress ∧ s'.rule = s.rule) stop := by
  unfold noise
  simp only [leads_bind, leads_pure]
  exact ⟨rfl, rfl⟩

omit [OrderedScalar α] in
theorem leads_mapM_noise (cold : α) (values : List α) (s : Session σ (Annealing ρ α) α)
    {stop : Failure α → Session σ (Annealing ρ α) α → Prop} :
    Leads (values.mapM fun value => do return value + (← noise cold) :
        Run σ (Annealing ρ α) α (List α)) s
      (fun _ s' => s'.progress = s.progress ∧ s'.rule = s.rule) stop := by
  refine leads_mapM_keeps (fun value s' hs' => ?_) ⟨rfl, rfl⟩
  refine (leads_noise cold s').bind ?_
  exact fun _ s'' hs'' => ⟨hs''.1.trans hs'.1, hs''.2.trans hs'.2⟩

theorem leads_tryMove (logs : P.objective.Logs log)
    (hcost : ∀ x o, (P.objective.value x o).1 = cost x)
    (h : Searches P cost log earlier start s state) (r : NoisyRanking α) (factor : α) :
    Leads (tryMove P cold r factor state) s
      (fun made s' => Searches P cost log earlier start s' made.2 ∧ s'.rule = s.rule)
      (Fails P cost log earlier) := by
  unfold tryMove
  dsimp only
  generalize Simplex.trialPoint _ _ _ factor = trial
  refine (leads_evaluate_record logs hcost h trial).bind ?_
  rintro v s₁ ⟨h₁, hrule₁⟩
  refine (leads_noise cold s₁).bind ?_
  rintro drawn s₂ ⟨hprogress, hrule₂⟩
  have hrule := hrule₂.trans hrule₁
  rw [leads_ite]
  exact ⟨fun _ => ⟨h₁.congr hprogress rfl rfl, hrule⟩,
    fun _ => ⟨h₁.congr hprogress rfl rfl, hrule⟩⟩

theorem leads_moves (logs : P.objective.Logs log)
    (hcost : ∀ x o, (P.objective.value x o).1 = cost x)
    (h : Searches P cost log earlier start s state) (r : NoisyRanking α) :
    Leads (moves P cold r state) s
      (fun made s' => Searches P cost log earlier start s' made.2 ∧ s'.rule = s.rule ∧
        1 ≤ made.1)
      (Fails P cost log earlier) := by
  unfold moves
  refine (leads_tryMove logs hcost h r (-1)).bind ?_
  rintro ⟨reflected, state₁⟩ s₁ ⟨h₁, hrule₁⟩
  dsimp only
  rw [leads_ite]
  refine ⟨fun _ => ?_, fun _ => leads_ite.mpr ⟨fun _ => ?_, fun _ => ⟨h₁, hrule₁, le_rfl⟩⟩⟩
  · refine (leads_tryMove logs hcost h₁ r 2.0).bind ?_
    exact fun made s₂ h₂ => ⟨h₂.1, h₂.2.trans hrule₁, one_le_two⟩
  · refine (leads_tryMove logs hcost h₁ r 0.5).bind ?_
    rintro ⟨contracted, state₂⟩ s₂ ⟨h₂, hrule₂⟩
    dsimp only
    rw [leads_ite]
    refine ⟨fun _ => ?_, fun _ => ⟨h₂, hrule₂.trans hrule₁, one_le_two⟩⟩
    refine (leads_shrink logs hcost r.lowest _ h₂).bind ?_
    rintro state₃ s₃ ⟨h₃, hrule₃⟩
    exact ⟨h₃, hrule₃.trans (hrule₂.trans hrule₁), by dsimp only; omega⟩

/-! ## Passes -/

omit [OrderedScalar α] [RandomSource ρ] in
theorem iteration_advance (clock : Clock α) (a : Annealing ρ α) (spent : Nat) :
    (clock.advance a spent).iteration = clock.iteration + spent := by
  unfold Clock.advance
  dsimp only
  split
  · rfl
  · rfl

/-- One pass: it ends the run, or hands on to the next after at least one more iteration. -/
theorem leads_passes_succ (logs : P.objective.Logs log)
    (hcost : ∀ x o, (P.objective.value x o).1 = cost x) {more : Nat} {clock : Clock α}
    (h : Searches P cost log earlier start s state)
    (hnext : ∀ (s' : Session σ (Annealing ρ α) α) state' clock',
      Searches P cost log earlier start s' state' →
      s'.rule.maxIterations = s.rule.maxIterations → clock.iteration < s.rule.maxIterations →
      clock.iteration + 1 ≤ clock'.iteration →
      Leads (passes P more clock' state') s'
        (fun _ s' => Returns P cost log earlier start s') (Fails P cost log earlier)) :
    Leads (passes P (more + 1) clock state) s
      (fun _ s' => Returns P cost log earlier start s') (Fails P cost log earlier) := by
  unfold passes
  dsimp only
  refine (leads_mapM_noise _ state.values s).bind ?_
  rintro noisy s₁ ⟨hprogress, hrule⟩
  have h₁ : Searches P cost log earlier start s₁ state := h.congr hprogress rfl rfl
  generalize NoisyRanking.of noisy = r
  -- Settling for the recorded point, whichever check fired.
  have hsettle (rule : StoppingRule α) :
      Leads (do Run.work (Problem.settle state.best state.bestValue); Run.outcome)
        { s₁ with rule } (fun _ s' => Returns P cost log earlier start s')
        (Fails P cost log earlier) := by
    rw [leads_bind, leads_settle, leads_outcome]
    obtain ⟨requests, hsearches⟩ := h₁
    exact ⟨state, ⟨requests, hsearches⟩, rfl, rfl⟩
  simp only [leads_bind, leads_check, leads_ite, leads_pure]
  refine ⟨fun _ => ⟨fun _ => hsettle _, by simp⟩, fun _ => ⟨fun _ => hsettle _, fun hgoes => ?_⟩⟩
  obtain ⟨hsame, hlt⟩ := StoppingRule.checkMaxIterations_eq_false (eq_false_of_ne_true hgoes)
  unfold StoppingRule.checkStationaryPoint at hlt hsame ⊢
  rw [StoppingRule.maxIterations_checkStationary, hrule] at hlt
  rw [hsame]
  have hmoves (rule : StoppingRule α) (sum : Vec α) :
      Searches P cost log earlier start { s₁ with rule } { state with sum } :=
    h₁.congr rfl rfl rfl
  refine (leads_moves logs hcost (hmoves _ _) r).imp ?_
  rintro ⟨spent, state'⟩ s₂ ⟨h₂, hrule₂, hspent⟩
  dsimp only at h₂ hrule₂ hspent ⊢
  rw [leads_get]
  refine hnext _ _ _ h₂ ?_ hlt ?_
  · rw [hrule₂, StoppingRule.maxIterations_checkStationary, hrule]
  · rw [iteration_advance]
    omega

theorem leads_passes (logs : P.objective.Logs log)
    (hcost : ∀ x o, (P.objective.value x o).1 = cost x) {more : Nat} {clock : Clock α}
    (h : Searches P cost log earlier start s state)
    (hmore : s.rule.maxIterations ≤ clock.iteration + more) :
    Leads (passes P (more + 1) clock state) s
      (fun _ s' => Returns P cost log earlier start s') (Fails P cost log earlier) := by
  induction more generalizing s state clock with
  | zero =>
      refine leads_passes_succ logs hcost h fun s' state' clock' _ hrule hlt hclock => ?_
      omega
  | succ more ih =>
      refine leads_passes_succ logs hcost h fun s' state' clock' h' hrule hlt hclock => ?_
      exact ih h' (by rw [hrule]; omega)

/-! ## Runs -/

def checkedVertices (region : Region α) (x : Vec α) (lambda : α) : Checked α (List (Vec α)) := do
  if x.isEmpty then throw (.invalid .noParameters)
  if !region.contains x then throw (.error .infeasibleStart)
  Simplex.initialVertices region x lambda

omit [OrderedScalar α] [RandomSource ρ] in
theorem start_mem_initialVertices {region : Region α} {lambda : α} {vertices : List (Vec α)}
    (h : Simplex.initialVertices region x lambda = .ok vertices) : x ∈ vertices := by
  unfold Simplex.initialVertices at h
  cases hothers : (List.range x.length).mapM fun i =>
      (·.2) <$> region.move x (Vec.unit x.length i) lambda with
  | error e =>
      rw [hothers] at h
      contradiction
  | ok others =>
      rw [hothers] at h
      cases h
      exact List.mem_cons_self

/-- A run fails because its simplex cannot be laid out or because its last request failed. -/
theorem leads_minimize (logs : P.objective.Logs log)
    (hcost : ∀ x o, (P.objective.value x o).1 = cost x) (s : Session σ (Annealing ρ α) α) :
    Leads (minimize P) s
      (fun _ s' => Returns P cost log (log s.progress.oracle) s.progress.point s')
      (fun e s' => Fails P cost log (log s.progress.oracle) e s' ∨
        checkedVertices P.region s.progress.point s.memory.lambda = .error e ∧
          log s'.progress.oracle = log s.progress.oracle) := by
  unfold minimize checkedVertices
  simp only [leads_bind, leads_reset, leads_get, leads_ite, leads_throw, leads_attempt,
    Progress.reset]
  refine ⟨fun hempty => .inr ⟨by rw [if_pos hempty]; rfl, trivial⟩, fun hempty => ⟨fun hout => ?_,
    fun hin => ?_⟩⟩
  · exact .inr ⟨by rw [if_neg hempty, if_pos hout]; rfl, trivial⟩
  rw [if_neg hempty, if_neg hin]
  have hstart : P.region.contains s.progress.point = true := by simpa using hin
  cases hvertices : Simplex.initialVertices P.region s.progress.point s.memory.lambda with
  | error e => exact .inr ⟨rfl, trivial⟩
  | ok vertices =>
      have hnone : ∀ x ∈ ([] : List (Vec α)), P.region.contains x = true := by simp
      refine (leads_mapM_evaluate logs hcost rfl hnone).mono ?_ fun _ _ h => .inl h
      rintro values s₁ ⟨hvalues, hrule, hlog⟩
      have htracks : Tracks cost [] (⟨vertices, values, Vec.zeros s.progress.point.length,
        s.progress.point, Scalar.largest⟩ : State α) := .empty rfl
      refine (leads_passes logs hcost ⟨_, hlog, ?_, ?_, ?_⟩ ?_).mono (fun _ _ h => h)
        fun _ _ h => .inl h
      · intro x hx
        exact (List.mem_filter.mp (List.mem_reverse.mp hx)).2
      · have hmem := start_mem_initialVertices hvertices
        exact List.mem_reverse.mpr (List.mem_filter.mpr ⟨hmem, hstart⟩)
      · rw [← List.append_nil (vertices.filter P.region.contains).reverse]
        exact htracks.foldl_record hvalues
      · exact Nat.le_of_eq (Nat.zero_add _).symm

theorem Tracks.exists_best {requests : List (Vec α)} (h : Tracks cost requests state)
    (hsome : ∃ x ∈ requests, ∃ v, cost x = .ok v ∧ v < Scalar.largest) :
    state.best ∈ requests ∧ cost state.best = .ok state.bestValue ∧
      ∀ x ∈ requests, ∀ w, cost x = .ok w → w ≤ w → state.bestValue ≤ w := by
  obtain ⟨x, hx, v, hv, hlt⟩ := hsome
  have hbest : state.bestValue < Scalar.largest := lt_of_le_of_lt (h.least hx hv hlt) hlt
  exact ⟨(h.best hbest).1, (h.best hbest).2, fun y hy w hw => h.le hx hv hlt hy hw⟩

/-- A run asks for the cost at feasible points only.  Once a cost below the largest number has
been asked for, the run returns a feasible point at which it has asked, with its cost, and this
is the least of the costs asked for that are defined. -/
theorem minimize_best_requested (logs : P.objective.Logs log)
    (hcost : ∀ x o, (P.objective.value x o).1 = cost x) (s : Session σ (Annealing ρ α) α) :
    ∃ requests, log (minimize P s).2.progress.oracle = requests ++ log s.progress.oracle ∧
      (∀ x ∈ requests, P.region.contains x = true) ∧
      ∀ o s', minimize P s = (.ok o, s') → s.progress.point ∈ requests ∧
        ((∃ x ∈ requests, ∃ v, cost x = .ok v ∧ v < Scalar.largest) →
          ∃ v, s'.progress.value = some v ∧ cost s'.progress.point = .ok v ∧
            s'.progress.point ∈ requests ∧ P.region.contains s'.progress.point = true ∧
            ∀ x ∈ requests, ∀ w, cost x = .ok w → w ≤ w → v ≤ w) := by
  have hruns := leads_minimize logs hcost s
  rcases hrun : minimize P s with ⟨result, s'⟩
  rw [Leads, hrun] at hruns
  cases result with
  | ok o =>
      obtain ⟨state, ⟨requests, hlog, hfeasible, hstart, htracks⟩, hpoint, hvalue⟩ := hruns
      refine ⟨requests, hlog, hfeasible, fun o' s'' hok => ?_⟩
      cases hok
      refine ⟨hstart, fun hsome => ?_⟩
      obtain ⟨hmem, hbest, hleast⟩ := htracks.exists_best hsome
      rw [hpoint]
      exact ⟨state.bestValue, hvalue, hbest, hmem, hfeasible _ hmem, hleast⟩
  | error e =>
      rcases hruns with ⟨x, requests, hlog, -, hfeasible⟩ | ⟨-, hlog⟩
      · exact ⟨x :: requests, hlog, hfeasible, by rintro o s' ⟨⟩⟩
      · exact ⟨[], hlog, by simp, by rintro o s' ⟨⟩⟩

theorem minimize_eq_ok (logs : P.objective.Logs log)
    (hcost : ∀ x o, (P.objective.value x o).1 = cost x) {s : Session σ (Annealing ρ α) α}
    (hvertices : (checkedVertices P.region s.progress.point s.memory.lambda).toOption.isSome = true)
    (hnever : ∀ x e, cost x ≠ .error e) : ∃ o s', minimize P s = (.ok o, s') := by
  have hruns := leads_minimize logs hcost s
  rcases hrun : minimize P s with ⟨result, s'⟩
  rw [Leads, hrun] at hruns
  cases result with
  | ok o => exact ⟨o, s', rfl⟩
  | error e =>
      rcases hruns with ⟨x, requests, -, herror, -⟩ | ⟨herror, -⟩
      · exact absurd herror (hnever x e)
      · rw [herror] at hvertices
        cases hvertices

/-! ## A run on terraces -/

def hundredIterations : Session (List (Evaluation Float)) (Annealing Generator Float) Float where
  progress := .start [] [0.25]
  rule := ⟨100, 2, 1e-8, 1e-8, 1e-8, .running, 0, Nat.one_lt_two, by decide⟩
  memory := ⟨.counter 0, 0.6, 1, .constantFactor 0.1 5⟩

/-- The logarithms of the noise are unknown, yet the run is known to end: neither the layout nor
a request fails. -/
theorem minimize_best_requested_terraces :
    boxedTerraces.objective.Logs (List.map Cost.point) ∧
      ∃ o s' v, minimize boxedTerraces hundredIterations = (.ok o, s') ∧
        s'.progress.value = some v ∧ s'.progress.point ∈ s'.progress.oracle.map Cost.point ∧
        (terraces 0.3 0.6).valueOrZero s'.progress.point = v ∧
        ∀ x ∈ s'.progress.oracle.map Cost.point, v ≤ (terraces 0.3 0.6).valueOrZero x := by
  have logs : boxedTerraces.objective.Logs (List.map Cost.point) := Cost.objective_logs _
  have hcost (x : Vec Float) (o : List (Evaluation Float)) :
      (boxedTerraces.objective.value x o).1 =
        .ok ((terraces 0.3 0.6).valueOrZero x) := rfl
  have hvertices : (checkedVertices boxedTerraces.region hundredIterations.progress.point
      hundredIterations.memory.lambda).toOption.isSome = true := by
    decide +kernel
  obtain ⟨o, s', hrun⟩ := minimize_eq_ok logs hcost hvertices nofun
  obtain ⟨requests, hlog, -, hended⟩ := minimize_best_requested logs hcost hundredIterations
  obtain ⟨hstart, hbest⟩ := hended o s' hrun
  obtain ⟨v, hvalue, hcosts, hmem, -, hleast⟩ :=
    hbest ⟨[0.25], hstart, 2, rfl, by decide +kernel⟩
  rw [hrun, hundredIterations, Progress.start, List.map_nil, List.append_nil] at hlog
  refine ⟨logs, o, s', v, hrun, hvalue, hlog ▸ hmem, Except.ok.inj hcosts, fun x hx => ?_⟩
  exact hleast x (hlog ▸ hx) _ rfl (terraces_defined 0.3 0.6 x)

end Minima.Annealing
