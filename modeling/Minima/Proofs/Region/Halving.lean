import Mathlib.Data.Nat.Find
import Mathlib.Logic.Function.Iterate
import Minima.Double
import Minima.Region.Constraint

/-!
# Halved steps

A move takes the first of the steps `s`, `s / 2`, `s / 4` and so on that ends in the region, each
made from the same point.  `update` is the move in place: the point is held by a machine that also
lists the points that the region was asked for.  It asks for the ends of the halved steps in turn,
up to the first feasible one, and a point from which no step is feasible stays where it is.
-/

namespace Minima.Region

variable {α : Type} [Scalar α]

def halved (step : α) (k : Nat) : α := (fun s => s * 0.5)^[k] step

def tried (x direction : Vec α) (step : α) (k : Nat) : Vec α := along x direction (halved step k)

def trials (x direction : Vec α) (step : α) (n : Nat) : List (Vec α) :=
  ((List.range n).map (tried x direction step)).reverse

/-- A point that moves, and the points that a region was asked for, the last one first. -/
structure Moving (α : Type) where
  point : Vec α
  asked : List (Vec α)

def Moving.note (s : Moving α) (ys : List (Vec α)) : Moving α := { s with asked := ys ++ s.asked }

def ask (region : Region α) (y : Vec α) : StateM (Moving α) Bool := fun s =>
  (region.contains y, s.note [y])

def search (region : Region α) (x direction : Vec α) :
    (halvings : Nat) → (step : α) → StateM (Moving α) (Option (α × Vec α))
  | 0, step => do
      let y := along x direction step
      if ← region.ask y then return some (step, y) else return none
  | halvings + 1, step => do
      let y := along x direction step
      if ← region.ask y then return some (step, y)
      else region.search x direction halvings (step * 0.5)

def update (region : Region α) (direction : Vec α) (step : α) (s : Moving α) :
    Checked α α × Moving α :=
  match requireSame s.point.length direction.length with
  | .error e => (.error e, s)
  | .ok () =>
      match region.search s.point direction maxHalvings step s with
      | (some (taken, y), s) => (.ok taken, { s with point := y })
      | (none, s) => (.error (.error (.infeasibleStep maxHalvings)), s)

variable {region : Region α} {x direction : Vec α} {step : α}

/-! ## Trials -/

theorem trials_half (x direction : Vec α) (step : α) (n : Nat) :
    trials x direction (step * 0.5) n ++ [tried x direction step 0] =
      trials x direction step (n + 1) := by
  rw [trials, trials, List.range_succ_eq_map, List.map_cons, List.map_map, List.reverse_cons]
  rfl

theorem length_trials (x direction : Vec α) (step : α) (n : Nat) :
    (trials x direction step n).length = n := by
  rw [trials, List.length_reverse, List.length_map, List.length_range]

/-- `k` halvings are the fewest after which the step ends in the region. -/
structure Fewest (region : Region α) (x direction : Vec α) (step : α) (k : Nat) : Prop where
  contains : region.contains (tried x direction step k) = true
  of_lt {j : Nat} : j < k → region.contains (tried x direction step j) = false

theorem exists_fewest {n : Nat}
    (h : ∃ k ≤ n, region.contains (tried x direction step k) = true) :
    ∃ k ≤ n, Fewest region x direction step k := by
  obtain ⟨k, hk, hcontains⟩ := h
  have hexists : ∃ k, region.contains (tried x direction step k) = true := ⟨k, hcontains⟩
  have hle : Nat.find hexists ≤ n := Nat.le_trans (Nat.find_min' hexists hcontains) hk
  exact ⟨Nat.find hexists, hle, Nat.find_spec hexists,
    fun hj => Bool.eq_false_iff.mpr (Nat.find_min hexists hj)⟩

theorem Fewest.half {k : Nat} (h : Fewest region x direction step (k + 1)) :
    Fewest region x direction (step * 0.5) k :=
  ⟨h.contains, fun hj => h.of_lt (Nat.succ_lt_succ hj)⟩

/-! ## The search with a record -/

omit [Scalar α] in
theorem Moving.note_note (s : Moving α) (ys zs : List (Vec α)) :
    (s.note ys).note zs = s.note (zs ++ ys) := by
  rw [note, note, note, List.append_assoc]

omit [Scalar α] in
theorem ask_bind {β : Type} (region : Region α) (y : Vec α) (next : Bool → StateM (Moving α) β)
    (s : Moving α) : (region.ask y >>= next) s = next (region.contains y) (s.note [y]) := rfl

theorem fst_search (region : Region α) (x direction : Vec α) (halvings : Nat) (step : α)
    (s : Moving α) :
    (region.search x direction halvings step s).1 =
      firstFeasible region.contains x direction halvings step := by
  induction halvings generalizing step s with
  | zero =>
      rw [search, ask_bind, firstFeasible]
      split <;> rfl
  | succ halvings ih =>
      rw [search, ask_bind, firstFeasible]
      split
      · rfl
      · exact ih (step * 0.5) _

theorem search_of_contains (h : region.contains (tried x direction step 0) = true) (halvings : Nat)
    (s : Moving α) :
    region.search x direction halvings step s =
      (some (step, tried x direction step 0), s.note [tried x direction step 0]) := by
  have hfirst : region.contains (along x direction step) = true := h
  cases halvings with
  | zero =>
      rw [search, ask_bind, hfirst]
      rfl
  | succ halvings =>
      rw [search, ask_bind, hfirst]
      rfl

theorem search_zero (h : region.contains (tried x direction step 0) = false) (s : Moving α) :
    region.search x direction 0 step s = (none, s.note [tried x direction step 0]) := by
  have hfirst : region.contains (along x direction step) = false := h
  rw [search, ask_bind, hfirst]
  rfl

theorem search_succ (h : region.contains (tried x direction step 0) = false) (halvings : Nat)
    (s : Moving α) :
    region.search x direction (halvings + 1) step s =
      region.search x direction halvings (step * 0.5) (s.note [tried x direction step 0]) := by
  have hfirst : region.contains (along x direction step) = false := h
  rw [search, ask_bind, hfirst]
  rfl

/-- Where one of the trials is feasible the search finds the first that is. -/
theorem search_of_fewest {k halvings : Nat} (h : Fewest region x direction step k)
    (hk : k ≤ halvings) (s : Moving α) :
    region.search x direction halvings step s =
      (some (halved step k, tried x direction step k),
        s.note (trials x direction step (k + 1))) := by
  induction k generalizing halvings step s with
  | zero => exact search_of_contains h.contains halvings s
  | succ k ih =>
      obtain ⟨halvings, rfl⟩ : ∃ n, halvings = n + 1 :=
        Nat.exists_eq_add_one.mpr (Nat.lt_of_lt_of_le k.succ_pos hk)
      rw [search_succ (h.of_lt k.succ_pos), ih h.half (Nat.le_of_succ_le_succ hk),
        Moving.note_note, trials_half]
      rfl

theorem search_of_none {halvings : Nat}
    (h : ∀ k ≤ halvings, region.contains (tried x direction step k) = false) (s : Moving α) :
    region.search x direction halvings step s =
      (none, s.note (trials x direction step (halvings + 1))) := by
  induction halvings generalizing step s with
  | zero => exact search_zero (h 0 (Nat.le_refl 0)) s
  | succ halvings ih =>
      have hrest : ∀ k ≤ halvings, region.contains (tried x direction (step * 0.5) k) = false :=
        fun k hk => h (k + 1) (Nat.succ_le_succ hk)
      rw [search_succ (h 0 (Nat.zero_le _)), ih hrest, Moving.note_note, trials_half]

/-! ## Moves -/

section moves

variable {answer : Option (α × Vec α)} {s s' : Moving α}

theorem move_of_search (hlength : x.length = direction.length)
    (hsearch : region.search x direction maxHalvings step s = (answer, s')) :
    region.move x direction step =
      answer.elim (.error (.error (.infeasibleStep maxHalvings))) .ok := by
  have hsame : requireSame x.length direction.length = (.ok () : Checked α Unit) := if_pos hlength
  have hfirst := fst_search region x direction maxHalvings step s
  rw [hsearch] at hfirst
  rw [move, hsame, ← hfirst]
  cases answer <;> rfl

theorem update_of_search (hlength : s.point.length = direction.length)
    (hsearch : region.search s.point direction maxHalvings step s = (answer, s')) :
    region.update direction step s =
      answer.elim (.error (.error (.infeasibleStep maxHalvings)), s')
        fun (taken, y) => (.ok taken, { s' with point := y }) := by
  have hsame : requireSame s.point.length direction.length = (.ok () : Checked α Unit) :=
    if_pos hlength
  rw [update, hsame]
  dsimp only
  rw [hsearch]
  cases answer <;> rfl

end moves

/-- Among the ends of a step and of its first 200 halvings a move takes the first that is feasible,
and asks for no point behind it.  If none is feasible the move fails, and the point stays. -/
theorem move_takes_fewest_halvings (region : Region α) {x direction : Vec α} (step : α)
    (hlength : x.length = direction.length) :
    ((∃ k ≤ 200, Fewest region x direction step k ∧
        region.move x direction step = .ok (halved step k, tried x direction step k) ∧
        region.update direction step ⟨x, []⟩ =
          (.ok (halved step k), ⟨tried x direction step k, trials x direction step (k + 1)⟩)) ∨
      (∀ k ≤ 200, region.contains (tried x direction step k) = false) ∧
        region.move x direction step = .error (.error (.infeasibleStep 200)) ∧
        region.update direction step ⟨x, []⟩ =
          (.error (.error (.infeasibleStep 200)), ⟨x, trials x direction step 201⟩)) ∧
      (region.update direction step ⟨x, []⟩).2.asked.length ≤ 201 := by
  have hnoted (n : Nat) : Moving.note ⟨x, []⟩ (trials x direction step n) =
      ⟨x, trials x direction step n⟩ := by
    rw [Moving.note, List.append_nil]
  by_cases hsome : ∃ k ≤ 200, region.contains (tried x direction step k) = true
  · obtain ⟨k, hk, hfewest⟩ := exists_fewest hsome
    have hsearch := search_of_fewest hfewest hk ⟨x, []⟩
    have hupdate := update_of_search (s := ⟨x, []⟩) hlength hsearch
    rw [hnoted] at hupdate
    refine ⟨.inl ⟨k, hk, hfewest, move_of_search hlength hsearch, hupdate⟩, ?_⟩
    have hasked := length_trials x direction step (k + 1)
    rw [hupdate]
    exact Nat.le_trans (Nat.le_of_eq hasked) (Nat.succ_le_succ hk)
  · have hnone : ∀ k ≤ 200, region.contains (tried x direction step k) = false :=
      fun k hk => Bool.eq_false_iff.mpr fun h => hsome ⟨k, hk, h⟩
    have hsearch := search_of_none hnone ⟨x, []⟩
    have hupdate := update_of_search (s := ⟨x, []⟩) hlength hsearch
    rw [hnoted] at hupdate
    refine ⟨.inr ⟨hnone, move_of_search hlength hsearch, hupdate⟩, ?_⟩
    rw [hupdate]
    exact Nat.le_of_eq (length_trials x direction step 201)

/-! ## A move on an interval -/

def unitInterval : Region Float := (Constraint.boundary 0 1).region

theorem move_takes_fewest_halvings_unitInterval :
    [(0.5 : Float)].length = [(1 : Float)].length ∧
      unitInterval.move [0.5] [1] 2 = .ok (0.5, [1]) ∧
      unitInterval.update [1] 2 ⟨[0.5], []⟩ = (.ok 0.5, ⟨[1], [[1], [1.5], [2.5]]⟩) := by
  have hlength : [(0.5 : Float)].length = [(1 : Float)].length := by decide
  obtain ⟨⟨k, -, hfewest, hmove, hupdate⟩ | ⟨hnone, -⟩, -⟩ :=
    move_takes_fewest_halvings unitInterval 2 hlength
  · have hfirst : k ≠ 0 := by
      rintro rfl
      exact absurd hfewest.contains (by decide +kernel)
    have hsecond : k ≠ 1 := by
      rintro rfl
      exact absurd hfewest.contains (by decide +kernel)
    have hthird : ¬ 2 < k := fun h => absurd (hfewest.of_lt h) (by decide +kernel)
    obtain rfl : k = 2 := by omega
    have hstep : halved (2 : Float) 2 = 0.5 := by decide +kernel
    have hpoint : tried [0.5] [1] (2 : Float) 2 = [1] := by decide +kernel
    have htrials : trials [0.5] [1] (2 : Float) 3 = [[1], [1.5], [2.5]] := by decide +kernel
    rw [hstep, hpoint] at hmove hupdate
    rw [htrials] at hupdate
    exact ⟨hlength, hmove, hupdate⟩
  · exact absurd (hnone 2 (by decide)) (by decide +kernel)

end Minima.Region
