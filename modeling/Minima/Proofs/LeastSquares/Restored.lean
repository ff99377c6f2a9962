import Minima.Proofs.LeastSquares.Evaluations

/-!
# Back at the given point

Differences move a target from point to point and back at the end.  However they end, with a
Jacobian or without, the last call of all is the move to the given point, and forward differences
ask for residuals once for each coordinate that they reach.
-/

namespace Minima.Target

variable {τ α β γ : Type} {t : Target τ α}

/-! ## A record beside a run -/

/-- The same answers and states, with the calls made put on top of those before. -/
def Recorded (act : StateM τ β) (act' : StateM (τ × List (Call α)) β) : Prop :=
  ∀ s calls, ∃ made, act' (s, calls) = ((act s).1, (act s).2, made ++ calls)

theorem recorded_pure (b : β) :
    Recorded (pure b : StateM τ β) (pure b : StateM (τ × List (Call α)) β) :=
  fun _ _ => ⟨[], rfl⟩

theorem Recorded.bind {act : StateM τ β} {act' : StateM (τ × List (Call α)) β}
    {next : β → StateM τ γ} {next' : β → StateM (τ × List (Call α)) γ} (h : Recorded act act')
    (hnext : ∀ b, Recorded (next b) (next' b)) : Recorded (act >>= next) (act' >>= next') := by
  intro s calls
  obtain ⟨made, hact⟩ := h s calls
  obtain ⟨later, hlater⟩ := hnext (act s).1 (act s).2 (made ++ calls)
  refine ⟨later ++ made, ?_⟩
  have hrun : (act' >>= next') (s, calls) =
      next' (act' (s, calls)).1 (act' (s, calls)).2 := rfl
  rw [hrun, hact, hlater, List.append_assoc]
  rfl

theorem recorded_residualsAt (t : Target τ α) (x : Vec α) :
    Recorded (t.residualsAt x) (t.traced.residualsAt x) := by
  have hmove : Recorded (t.setParams x) (t.traced.setParams x) := fun _ _ => ⟨[.setParams x], rfl⟩
  refine hmove.bind fun _ s calls => ?_
  exact ⟨[.residuals (t.residuals s).1], rfl⟩

theorem recorded_columns {column : Nat → StateM τ (Option (Vec α))}
    {column' : Nat → StateM (τ × List (Call α)) (Option (Vec α))}
    (h : ∀ j, Recorded (column j) (column' j)) (js : List Nat) :
    Recorded (columns column js) (columns column' js) := by
  induction js with
  | nil => exact recorded_pure _
  | cons j js ih =>
      refine (h j).bind fun found => ?_
      cases found with
      | none => exact recorded_pure _
      | some c =>
          refine ih.bind fun rest => ?_
          cases rest with
          | none => exact recorded_pure _
          | some cs => exact recorded_pure _

variable [Scalar α]

theorem recorded_centralColumn (t : Target τ α) (x : Vec α) (j : Nat) :
    Recorded (t.centralColumn x j) (t.traced.centralColumn x j) := by
  refine (recorded_residualsAt t _).bind fun after => ?_
  exact (recorded_residualsAt t _).bind fun before => recorded_pure _

/-! ## The last call -/

/-- The run from `s` ends with a move to `x`: it is the last call, after those that were `made`, and
leaves the target in its last state. -/
structure MovesBack (t : Target τ α) (x : Vec α) (act : StateM τ β)
    (act' : StateM (τ × List (Call α)) β) (s : τ) (calls made : List (Call α)) : Prop where
  run_eq : act' (s, calls) = ((act s).1, (act s).2, .setParams x :: made ++ calls)
  state_eq : ∃ s', (act s).2 = (t.setParams x s').2

theorem movesBack_centralJacobian (t : Target τ α) (x : Vec α) (s : τ) (calls : List (Call α)) :
    ∃ made, MovesBack t x (t.centralJacobian x) (t.traced.centralJacobian x) s calls made := by
  obtain ⟨made, hcolumns⟩ :=
    recorded_columns (recorded_centralColumn t x) (List.range x.length) s calls
  refine ⟨made, ?_, (columns (t.centralColumn x) (List.range x.length) s).2, ?_⟩
  · simp only [centralJacobian_eq, bind, StateT.bind]
    rw [hcolumns]
    rcases columns (t.centralColumn x) (List.range x.length) s with ⟨_ | _ | ⟨first, rest⟩, s'⟩
    · rfl
    · rfl
    · rfl
  · simp only [centralJacobian_eq, bind, StateT.bind]
    rcases columns (t.centralColumn x) (List.range x.length) s with ⟨_ | _ | ⟨first, rest⟩, s'⟩
    · rfl
    · rfl
    · rfl

/-- How often forward differences in `n` coordinates have asked for residuals, by what they
found. -/
def Asked (n count : Nat) : Option β → Prop
  | some _ => count = n
  | none => count ≤ n

theorem Answered.asked {x : Vec α} {epsfcn : α} {m : Nat} {answers : List (Option (Vec α))}
    {found : Option β} (h : Answered x.length m answers found) :
    Asked x.length (residualCalls (differenceCalls x epsfcn (List.range x.length) answers))
      found := by
  cases found with
  | some b =>
      have hlength : answers.length = x.length := h
      rw [residualCalls_differenceCalls _ _ (by simp [hlength])]
      exact hlength
  | none =>
      obtain ⟨given, missed, rfl, hbreaks⟩ := h
      have hle : (given.map some ++ [missed]).length ≤ x.length := by
        simpa using Nat.succ_le_of_lt hbreaks.length_lt
      rw [residualCalls_differenceCalls _ _ (by simpa using hle)]
      exact hle

/-- Forward and central differences move the target back to the given point itself, on every path
and after all other calls.  Forward differences have asked for residuals once for each coordinate
if they give a Jacobian, and not more often if they do not. -/
theorem differences_move_back (t : Target τ α) (x residuals : Vec α) (epsfcn : α) (s : τ)
    (calls : List (Call α)) :
    (∃ made, MovesBack t x (t.forwardJacobian x residuals epsfcn)
        (t.traced.forwardJacobian x residuals epsfcn) s calls made ∧
      Asked x.length (residualCalls made) (t.forwardJacobian x residuals epsfcn s).1) ∧
    ∃ made, MovesBack t x (t.centralJacobian x) (t.traced.centralJacobian x) s calls made := by
  obtain ⟨answers, hrun, hanswers⟩ := forwardJacobian_traced t x residuals epsfcn s calls
  refine ⟨⟨_, ⟨hrun, _, rfl⟩, ?_⟩, movesBack_centralJacobian t x s calls⟩
  rw [residualCalls_reverse]
  exact hanswers.asked

example (a b c epsfcn : α) :
    scripted.traced.forwardJacobian [a] [b] epsfcn (⟨[a], [some [b, c]], []⟩, []) =
      (none, ⟨[a], [], []⟩,
        [.setParams [a], .residuals (some [b, c]), .setParams [a + forwardStep epsfcn a]]) :=
  rfl

end Minima.Target
