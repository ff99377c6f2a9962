import Minima.Proofs.Annealing.Counted
import Minima.Proofs.Simplex.Moves

/-!
# Expansions that overwrite a reflection

An expansion is compared with the value that the highest vertex had before the reflection took
its place, not with the reflection that it replaces.  Without noise the moves lose the least
value if and only if a reflection below all vertices is overwritten by an expansion that is not
as good.
-/

namespace Minima.Annealing

variable {α : Type} [Scalar α]

/-! ## States -/

def State.trial (state : State α) (place : Nat) (factor : α) : Vec α :=
  Simplex.trialPoint state.sum.length state.sum (state.vertices.getD place []) factor

def State.replace (state : State α) (place : Nat) (x : Vec α) (value : α) : State α :=
  { state with
    values := state.values.set place value
    sum := Vec.add state.sum (Vec.sub x (state.vertices.getD place []))
    vertices := state.vertices.set place x }

def State.summed (state : State α) : State α :=
  { state with sum := Simplex.sumOf state.sum.length state.vertices }

def State.tried (state : State α) (cost : Vec α → α) (top : NoisyRanking α) (x : Vec α) :
    State α :=
  if cost x < top.highestNoisy then (state.record x (cost x)).replace top.highest x (cost x)
  else state.record x (cost x)

def State.reflection (state : State α) : Vec α :=
  state.trial (NoisyRanking.of state.values).highest (-1)

def State.expansion (state : State α) (cost : Vec α → α) : Vec α :=
  let highest := (NoisyRanking.of state.values).highest
  (state.replace highest state.reflection (cost state.reflection)).trial highest 2.0

/-- A reflection below all vertices gives way to an expansion that is higher, but below the
vertex as it was before. -/
def Overwrites (cost : Vec α → α) (state : State α) : Prop :=
  (∀ v ∈ state.values, cost state.reflection < v) ∧
    cost state.reflection < cost (state.expansion cost) ∧
    cost (state.expansion cost) < state.values.getD (NoisyRanking.of state.values).highest 0

variable {cost : Vec α → α} {state next : State α} {top : NoisyRanking α} {x : Vec α} {n : Nat}
  {requests asked asked' : List (Vec α)} {values values' values'' : List α}

theorem trial_replace_record (state : State α) (x : Vec α) (value : α) (place : Nat)
    (factor : α) : ((state.record x value).replace place x value).trial place factor =
      (state.replace place x value).trial place factor := by
  unfold State.record
  split
  · rfl
  · rfl

theorem values_tried : (state.tried cost top x).values =
    if cost x < top.highestNoisy then state.values.set top.highest (cost x)
    else state.values := by
  unfold State.tried
  split
  · exact congrArg (·.set top.highest (cost x)) (values_record state x (cost x))
  · exact values_record state x (cost x)

theorem State.Shaped.tried (h : state.Shaped n) (cost : Vec α → α) (top : NoisyRanking α)
    (x : Vec α) : (state.tried cost top x).Shaped n := by
  have hrecorded := h.record x (cost x)
  unfold State.tried
  split
  · exact ⟨by rw [State.replace, List.length_set, hrecorded.length_vertices],
      by rw [State.replace, List.length_set, hrecorded.length_values]⟩
  · exact hrecorded

theorem getD_tried (hne : top.lowest ≠ top.highest) :
    (state.tried cost top x).values.getD top.lowest 0 = state.values.getD top.lowest 0 := by
  rw [values_tried]
  split
  · exact Simplex.getD_set_ne hne.symm
  · rfl

/-! ## Best values -/

/-- The least of the values is the least cost that has been asked for. -/
def Attains (cost : Vec α → α) (requests : List (Vec α)) (values : List α) : Prop :=
  ∃ v ∈ values, (∀ w ∈ values, v ≤ w) ∧ (∃ x ∈ requests, cost x = v) ∧
    ∀ x ∈ requests, v ≤ cost x

def Sampled (cost : Vec α → α) (requests : List (Vec α)) (values : List α) : Prop :=
  ∀ v ∈ values, ∃ x ∈ requests, cost x = v

def Covers (cost : Vec α → α) (requests : List (Vec α)) (values : List α) : Prop :=
  ∀ x ∈ requests, ∃ v ∈ values, v ≤ cost x

omit [Scalar α] in
theorem sampled_reverse (cost : Vec α → α) (vertices : List (Vec α)) :
    Sampled cost vertices.reverse (vertices.map cost) :=
  List.forall_mem_map.mpr fun x hx => ⟨x, List.mem_reverse.mpr hx, rfl⟩

theorem covers_reverse (hdefined : ∀ x, cost x ≤ cost x) (vertices : List (Vec α)) :
    Covers cost vertices.reverse (vertices.map cost) :=
  fun x hx => ⟨cost x, List.mem_map_of_mem (List.mem_reverse.mp hx), hdefined x⟩

/-! ## Values after the moves -/

/-- Every later value is an earlier one or a cost that has been asked for since. -/
def Updates (cost : Vec α → α) (values : List α) (asked : List (Vec α)) (values' : List α) : Prop :=
  ∀ v ∈ values', v ∈ values ∨ ∃ x ∈ asked, cost x = v

omit [Scalar α] in
theorem Updates.refl (values : List α) (asked : List (Vec α)) :
    Updates cost values asked values :=
  fun _ hv => .inl hv

omit [Scalar α] in
theorem Updates.set (values : List α) (i : Nat) (hx : x ∈ asked) :
    Updates cost values asked (values.set i (cost x)) := by
  intro v hv
  rcases List.mem_or_eq_of_mem_set hv with hold | rfl
  · exact .inl hold
  · exact .inr ⟨x, hx, rfl⟩

omit [Scalar α] in
theorem Updates.trans (h : Updates cost values asked values')
    (h' : Updates cost values' asked' values'') :
    Updates cost values (asked' ++ asked) values'' := by
  intro v hv
  rcases h' v hv with hold | ⟨x, hx, hcost⟩
  · rcases h v hold with hold | ⟨x, hx, hcost⟩
    · exact .inl hold
    · exact .inr ⟨x, List.mem_append_right _ hx, hcost⟩
  · exact .inr ⟨x, List.mem_append_left _ hx, hcost⟩

omit [Scalar α] in
theorem Updates.sampled_append (h : Updates cost values asked values')
    (hsampled : Sampled cost requests values) : Sampled cost (asked ++ requests) values' := by
  intro v hv
  rcases h v hv with hold | ⟨x, hx, hcost⟩
  · obtain ⟨x, hx, hcost⟩ := hsampled v hold
    exact ⟨x, List.mem_append_right _ hx, hcost⟩
  · exact ⟨x, List.mem_append_left _ hx, hcost⟩

theorem updates_tried : Updates cost state.values [x] (state.tried cost top x).values := by
  rw [values_tried]
  split
  · exact .set _ _ (List.mem_singleton_self x)
  · exact .refl _ _

/-- What the moves from a state do, which ask for costs at some points: one of the values that
they leave is as low as any value before and any of these costs, unless a reflection was
overwritten. -/
structure Follows (cost : Vec α → α) (state : State α) (asked : List (Vec α)) (next : State α) :
    Prop where
  updates : Updates cost state.values asked next.values
  covers : ¬ Overwrites cost state →
    (∀ v ∈ state.values, ∃ u ∈ next.values, u ≤ v) ∧ Covers cost asked next.values
  loses : Overwrites cost state → ∃ x ∈ asked, ∀ u ∈ next.values, cost x < u

structure Stays (cost : Vec α → α) (top : NoisyRanking α) (state : State α)
    (asked : List (Vec α)) (next : State α) : Prop where
  length_eq : next.values.length = state.values.length
  lowest_eq : next.values.getD top.lowest 0 = top.lowestNoisy
  updates : Updates cost state.values asked next.values

theorem Stays.refl (hranks : top.Ranks state.values state.values.length) :
    Stays cost top state [] state :=
  ⟨rfl, hranks.lowest_eq, .refl _ _⟩

theorem Stays.tried (hranks : top.Ranks state.values state.values.length)
    (h : Stays cost top state asked next) (x : Vec α) :
    Stays cost top state (x :: asked) (next.tried cost top x) where
  length_eq := by
    rw [values_tried]
    split
    · rw [List.length_set, h.length_eq]
    · exact h.length_eq
  lowest_eq := by rw [getD_tried hranks.lowest_ne, h.lowest_eq]
  updates := h.updates.trans updates_tried

theorem Stays.lowest_mem (hranks : top.Ranks state.values state.values.length)
    (h : Stays cost top state asked next) : top.lowestNoisy ∈ next.values := by
  rw [← h.lowest_eq]
  exact Simplex.getD_mem (by rw [h.length_eq]; exact hranks.lowest_lt)

variable [OrderedScalar α]

open OrderedScalar

theorem Follows.covers_append_iff (h : Follows cost state asked next)
    (hcovers : Covers cost requests state.values) :
    Covers cost (asked ++ requests) next.values ↔ ¬ Overwrites cost state := by
  constructor
  · intro hnext hoverwrites
    obtain ⟨x, hx, hbelow⟩ := h.loses hoverwrites
    obtain ⟨u, hu, hle⟩ := hnext x (List.mem_append_left _ hx)
    exact not_le_of_lt (hbelow u hu) hle
  · intro hnot x hx
    obtain ⟨hkept, hasked⟩ := h.covers hnot
    rcases List.mem_append.mp hx with hx | hx
    · exact hasked x hx
    · obtain ⟨v, hv, hvx⟩ := hcovers x hx
      obtain ⟨u, hu, huv⟩ := hkept v hv
      exact ⟨u, hu, le_trans huv hvx⟩

theorem attains_iff (hsampled : Sampled cost requests values) (hdefined : ∀ v ∈ values, v ≤ v)
    (hlength : 2 ≤ values.length) :
    Attains cost requests values ↔ Covers cost requests values := by
  constructor
  · rintro ⟨v, hv, -, -, hle⟩ x hx
    exact ⟨v, hv, hle x hx⟩
  · intro hcovers
    have hleast := (Simplex.ranks_ranking hdefined hlength).least
    have hmem := Simplex.getD_mem (d := 0) hleast.lt_length
    refine ⟨_, hmem, fun w hw => hleast.le hw, hsampled _ hmem, fun x hx => ?_⟩
    obtain ⟨v, hv, hvx⟩ := hcovers x hx
    exact le_trans (hleast.le hv) hvx

/-! ## Expansions -/

theorem Follows.of_le {u : α} (hranks : top.Ranks state.values state.values.length)
    (hu : u ∈ next.values) (hle : u ≤ top.lowestNoisy)
    (hupdates : Updates cost state.values asked next.values)
    (hasked : Covers cost asked next.values) (hnot : ¬ Overwrites cost state) :
    Follows cost state asked next where
  updates := hupdates
  covers _ := ⟨fun _ hv => ⟨u, hu, le_trans hle (hranks.lowest_le_of_mem hv)⟩, hasked⟩
  loses hoverwrites := absurd hoverwrites hnot

theorem Follows.of_expansion (hdefined : ∀ x, cost x ≤ cost x)
    (hranks : top.Ranks state.values state.values.length)
    (htop : top = NoisyRanking.of state.values) (hlow : cost state.reflection ≤ top.lowestNoisy)
    (hnext : next.values = state.values.set top.highest
      (if cost (state.expansion cost) < top.highestNoisy then cost (state.expansion cost)
        else cost state.reflection)) :
    Follows cost state [state.expansion cost, state.reflection] next := by
  have hoverwrites : Overwrites cost state ↔ (∀ v ∈ state.values, cost state.reflection < v) ∧
      cost state.reflection < cost (state.expansion cost) ∧
      cost (state.expansion cost) < top.highestNoisy := by
    rw [← hranks.highest_eq, htop]
    rfl
  generalize state.reflection = reflected at *
  generalize state.expansion cost = expanded at *
  have hmem := List.mem_set hranks.highest_lt
    (if cost expanded < top.highestNoisy then cost expanded else cost reflected)
  rw [← hnext] at hmem
  have hupdates : Updates cost state.values [expanded, reflected] next.values := by
    rw [hnext]
    split
    · exact .set _ _ (by simp)
    · exact .set _ _ (by simp)
  have hcovers (hexpanded : ∃ u ∈ next.values, u ≤ cost expanded)
      (hreflected : ∃ u ∈ next.values, u ≤ cost reflected) :
      Covers cost [expanded, reflected] next.values :=
    List.forall_mem_cons.mpr ⟨hexpanded, List.forall_mem_singleton.mpr hreflected⟩
  by_cases hnot : Overwrites cost state
  · refine ⟨hupdates, fun h => absurd hnot h, fun _ => ⟨reflected, by simp, fun u hu => ?_⟩⟩
    obtain ⟨hbelow, hworse, haccepted⟩ := hoverwrites.mp hnot
    rw [hnext, if_pos haccepted] at hu
    rcases List.mem_or_eq_of_mem_set hu with hold | rfl
    · exact hbelow u hold
    · exact hworse
  by_cases haccepted : cost expanded < top.highestNoisy
  · rw [if_pos haccepted] at hmem
    by_cases hworse : cost reflected < cost expanded
    · -- The reflection is no better than the lowest vertex, which stays.
      have hequal : top.lowestNoisy ≤ cost reflected := by
        refine Decidable.byContradiction fun habove => hnot (hoverwrites.mpr ?_)
        refine ⟨fun v hv => ?_, hworse, haccepted⟩
        exact lt_of_lt_of_le (lt_of_not_le (hdefined _) (le_refl_right hlow) habove)
          (hranks.lowest_le_of_mem hv)
      have hlowest : top.lowestNoisy ∈ next.values := by
        rw [hnext, ← hranks.lowest_eq, ← Simplex.getD_set_ne hranks.lowest_ne.symm]
        exact Simplex.getD_mem (by rw [List.length_set]; exact hranks.lowest_lt)
      exact .of_le hranks hlowest (le_refl_right hlow) hupdates
        (hcovers ⟨_, hmem, hdefined _⟩ ⟨_, hlowest, hequal⟩) hnot
    · have hbetter := le_of_not_lt (hdefined _) (hdefined _) hworse
      exact .of_le hranks hmem (le_trans hbetter hlow) hupdates
        (hcovers ⟨_, hmem, hdefined _⟩ ⟨_, hmem, hbetter⟩) hnot
  · rw [if_neg haccepted] at hmem
    have hhigh := le_of_not_lt (hdefined _) (le_refl_right hranks.lowest_le_highest) haccepted
    have hle := le_trans hlow (le_trans hranks.lowest_le_highest hhigh)
    exact .of_le hranks hmem hlow hupdates (hcovers ⟨_, hmem, hle⟩ ⟨_, hmem, hdefined _⟩) hnot

/-! ## Moves that keep the lowest vertex -/

theorem Stays.covers_tried (hranks : top.Ranks state.values state.values.length)
    (hdefined : ∀ x, cost x ≤ cost x) (h : Stays cost top state asked next)
    (hasked : ∀ x ∈ asked, top.lowestNoisy ≤ cost x) (x : Vec α) :
    Covers cost (x :: asked) (next.tried cost top x).values := by
  have hlowest := (h.tried hranks x).lowest_mem hranks
  refine List.forall_mem_cons.mpr ⟨?_, fun y hy => ⟨_, hlowest, hasked y hy⟩⟩
  by_cases haccepted : cost x < top.highestNoisy
  · refine ⟨cost x, ?_, hdefined x⟩
    rw [values_tried, if_pos haccepted]
    exact List.mem_set (by rw [h.length_eq]; exact hranks.highest_lt) _
  · have hle := hranks.lowest_le_highest
    exact ⟨_, hlowest, le_trans hle (le_of_not_lt (hdefined x) (le_refl_right hle) haccepted)⟩

theorem not_overwrites (hranks : top.Ranks state.values state.values.length)
    (hle : top.lowestNoisy ≤ cost state.reflection) : ¬ Overwrites cost state := by
  rintro ⟨hbelow, -⟩
  have hlt := hbelow (state.values.getD top.lowest 0) (Simplex.getD_mem hranks.lowest_lt)
  rw [hranks.lowest_eq] at hlt
  exact not_le_of_lt hlt hle

theorem Stays.follows (hranks : top.Ranks state.values state.values.length)
    (h : Stays cost top state asked next) (hle : top.lowestNoisy ≤ cost state.reflection)
    (hasked : Covers cost asked next.values) : Follows cost state asked next :=
  .of_le hranks (h.lowest_mem hranks) (le_refl_left hle) h.updates hasked
    (not_overwrites hranks hle)

theorem follows_reflection (hdefined : ∀ x, cost x ≤ cost x)
    (hranks : top.Ranks state.values state.values.length)
    (htop : top = NoisyRanking.of state.values) (hlow : cost state.reflection ≤ top.lowestNoisy)
    (hnext : next = state.tried cost top state.reflection) :
    Follows cost state [next.trial top.highest 2.0, state.reflection]
      (next.tried cost top (next.trial top.highest 2.0)) := by
  by_cases haccepted : cost state.reflection < top.highestNoisy
  · have hvalues : next.values = state.values.set top.highest (cost state.reflection) := by
      rw [hnext, values_tried, if_pos haccepted]
    have htrial : next.trial top.highest 2.0 = state.expansion cost := by
      rw [hnext, State.tried, if_pos haccepted, trial_replace_record, htop]
      rfl
    rw [htrial]
    refine .of_expansion hdefined hranks htop hlow ?_
    rw [values_tried, hvalues]
    split
    · rw [List.set_set]
    · rfl
  · -- All vertices are as low as the reflection, which is not taken.
    have hle : top.lowestNoisy ≤ cost state.reflection :=
      le_trans hranks.lowest_le_highest (le_of_not_lt (le_refl_left hlow)
        (le_refl_right hranks.lowest_le_highest) haccepted)
    have hstays : Stays cost top state [state.reflection] next :=
      hnext ▸ (Stays.refl hranks).tried hranks _
    exact (hstays.tried hranks _).follows hranks hle
      (hstays.covers_tried hranks hdefined (List.forall_mem_singleton.mpr hle) _)

end Minima.Annealing
