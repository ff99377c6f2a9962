import Minima.Double
import Minima.Proofs.LeastSquares.Stage
import Minima.Proofs.LeastSquares.Sweep
import Minima.Proofs.Mirrors

/-!
# Evaluations of the least squares solver

The solver counts an evaluation where it asks for residuals, and those of forward differences
beforehand, one for each coordinate.  The calls that a target has seen tell how often residuals
were asked for.
-/

namespace Minima

variable {τ α : Type}

namespace Target

def residualCalls (calls : List (Call α)) : Nat :=
  calls.countP fun
    | .residuals _ => true
    | _ => false

section

variable (calls later : List (Call α))

@[simp]
theorem residualCalls_setParams (x : Vec α) :
    residualCalls (.setParams x :: calls) = residualCalls calls := by
  simp [residualCalls]

@[simp]
theorem residualCalls_residuals (answer : Option (Vec α)) :
    residualCalls (.residuals answer :: calls) = residualCalls calls + 1 := by
  simp [residualCalls]

@[simp]
theorem residualCalls_jacobian (answer : Option (DenseMatrix α)) :
    residualCalls (.jacobian answer :: calls) = residualCalls calls := by
  simp [residualCalls]

@[simp]
theorem residualCalls_append :
    residualCalls (later ++ calls) = residualCalls later + residualCalls calls := by
  simp [residualCalls]

@[simp]
theorem residualCalls_reverse : residualCalls calls.reverse = residualCalls calls := by
  simp [residualCalls]

end

/-! ## Forward differences -/

variable [Scalar α]

def shifted (x : Vec α) (epsfcn : α) (j : Nat) : Vec α :=
  x.modify j (· + forwardStep epsfcn (x.getD j 0))

def differenceCalls (x : Vec α) (epsfcn : α) (js : List Nat) (answers : List (Option (Vec α))) :
    List (Call α) :=
  (js.zip answers).flatMap fun (j, answer) => [.setParams (shifted x epsfcn j), .residuals answer]

theorem reverse_differenceCalls_cons (x : Vec α) (epsfcn : α) (j : Nat) (js : List Nat)
    (answer : Option (Vec α)) (answers : List (Option (Vec α))) (calls : List (Call α)) :
    (differenceCalls x epsfcn (j :: js) (answer :: answers)).reverse ++ calls =
      (differenceCalls x epsfcn js answers).reverse ++
        .residuals answer :: .setParams (shifted x epsfcn j) :: calls := by
  simp [differenceCalls]

theorem residualCalls_differenceCalls (x : Vec α) (epsfcn : α) {js : List Nat}
    {answers : List (Option (Vec α))} (h : answers.length ≤ js.length) :
    residualCalls (differenceCalls x epsfcn js answers) = answers.length := by
  induction answers generalizing js with
  | nil => simp [differenceCalls, residualCalls]
  | cons answer answers ih =>
      cases js with
      | nil => simp at h
      | cons j js =>
          have hrest : residualCalls (differenceCalls x epsfcn js answers) = answers.length :=
            ih (by simpa using h)
          simp only [differenceCalls, List.zip_cons_cons, List.flatMap_cons, List.cons_append,
            List.nil_append, residualCalls_setParams, residualCalls_residuals,
            List.length_cons] at hrest ⊢
          rw [hrest]

/-- Differences in `n` coordinates break off: `m` components are `given` for some of them, and
then none or another number of them. -/
structure BreaksOff (n m : Nat) (given : List (Vec α)) (missed : Option (Vec α)) : Prop where
  length_lt : given.length < n
  given : ∀ r ∈ given, r.length = m
  missed : ∀ r ∈ missed, r.length ≠ m

def Answered {β : Type} (n m : Nat) (answers : List (Option (Vec α))) : Option β → Prop
  | some _ => answers.length = n
  | none => ∃ given missed, answers = given.map some ++ [missed] ∧ BreaksOff n m given missed

variable (t : Target τ α) (x residuals : Vec α) (epsfcn : α)

theorem forwardColumn_traced (j : Nat) (s : τ) (calls : List (Call α)) :
    ∃ answer, t.traced.forwardColumn x residuals epsfcn j (s, calls) =
        ((t.forwardColumn x residuals epsfcn j s).1, (t.forwardColumn x residuals epsfcn j s).2,
          .residuals answer :: .setParams (shifted x epsfcn j) :: calls) ∧
      match (t.forwardColumn x residuals epsfcn j s).1 with
      | some _ => ∃ r, answer = some r ∧ r.length = residuals.length
      | none => ∀ r ∈ answer, r.length ≠ residuals.length := by
  refine ⟨(t.residuals (t.setParams (shifted x epsfcn j) s).2).1, ?_⟩
  unfold forwardColumn residualsAt shifted quotients
  simp only [bind, StateT.bind, traced, modify, modifyGet, MonadStateOf.modifyGet, StateT.modifyGet]
  rcases t.setParams (x.modify j (· + forwardStep epsfcn (x.getD j 0))) s with ⟨⟨⟩, s'⟩
  dsimp only [pure]
  rcases t.residuals s' with ⟨_ | r, s''⟩
  · refine ⟨rfl, ?_⟩
    rintro _ ⟨⟩
  · by_cases hlength : r.length = residuals.length
    · simp only [if_pos hlength]
      exact ⟨rfl, r, rfl, hlength⟩
    · simp only [if_neg hlength]
      refine ⟨rfl, ?_⟩
      rintro _ ⟨⟩
      exact hlength

theorem columns_traced (js : List Nat) (s : τ) (calls : List (Call α)) :
    ∃ answers, columns (t.traced.forwardColumn x residuals epsfcn) js (s, calls) =
        ((columns (t.forwardColumn x residuals epsfcn) js s).1,
          (columns (t.forwardColumn x residuals epsfcn) js s).2,
          (differenceCalls x epsfcn js answers).reverse ++ calls) ∧
      Answered js.length residuals.length answers
        (columns (t.forwardColumn x residuals epsfcn) js s).1 := by
  induction js generalizing s calls with
  | nil => exact ⟨[], rfl, rfl⟩
  | cons j js ih =>
      obtain ⟨answer, hcolumn, hanswer⟩ := forwardColumn_traced t x residuals epsfcn j s calls
      simp only [columns, bind, StateT.bind]
      rw [hcolumn]
      rcases hrun : t.forwardColumn x residuals epsfcn j s with ⟨_ | c, s'⟩ <;> rw [hrun] at hanswer
      · refine ⟨[answer], ?_, [], answer, rfl, by simp, by simp, hanswer⟩
        rw [reverse_differenceCalls_cons, differenceCalls, List.zip_nil_right]
        rfl
      · obtain ⟨r, rfl, hr⟩ := hanswer
        obtain ⟨answers, hcolumns, hanswers⟩ :=
          ih s' (.residuals (some r) :: .setParams (shifted x epsfcn j) :: calls)
        dsimp only [StateT.bind]
        rw [hcolumns]
        rcases hrest : columns (t.forwardColumn x residuals epsfcn) js s' with ⟨_ | cs, s''⟩ <;>
          rw [hrest] at hanswers
        · obtain ⟨given, missed, rfl, hbreaks⟩ := hanswers
          refine ⟨some r :: (given.map some ++ [missed]), ?_, r :: given, missed, rfl, ?_⟩
          · rw [reverse_differenceCalls_cons]
            rfl
          · exact ⟨by simpa using hbreaks.length_lt, by simpa [hr] using hbreaks.given,
              hbreaks.missed⟩
        · refine ⟨some r :: answers, ?_, congrArg (· + 1) hanswers⟩
          rw [reverse_differenceCalls_cons]
          rfl

theorem forwardJacobian_traced (s : τ) (calls : List (Call α)) :
    ∃ answers, t.traced.forwardJacobian x residuals epsfcn (s, calls) =
        ((t.forwardJacobian x residuals epsfcn s).1, (t.forwardJacobian x residuals epsfcn s).2,
          .setParams x :: (differenceCalls x epsfcn (List.range x.length) answers).reverse ++
            calls) ∧
      Answered x.length residuals.length answers (t.forwardJacobian x residuals epsfcn s).1 := by
  obtain ⟨answers, hcolumns, hanswers⟩ :=
    columns_traced t x residuals epsfcn (List.range x.length) s calls
  refine ⟨answers, ?_⟩
  simp only [forwardJacobian_eq, bind, StateT.bind]
  rw [hcolumns]
  rw [List.length_range] at hanswers
  rcases hrun : columns (t.forwardColumn x residuals epsfcn) (List.range x.length) s with
    ⟨_ | cs, s'⟩ <;> rw [hrun] at hanswers
  · exact ⟨rfl, hanswers⟩
  · exact ⟨rfl, hanswers⟩

end Target

/-! ## Stages -/

namespace Solver

open Target

variable [Scalar α] {norm : Norm} {s : Solver α} {t : Target τ α} {a : Account τ α}
  {a' : Account (τ × List (Call α)) α}

def Account.untraced (a : Account (τ × List (Call α)) α) : Account τ α :=
  ⟨a.target.1, a.evaluations, a.objective⟩

/-- The same run without a list of calls, with all evaluations counted as they are made. -/
structure Counted (a : Account τ α) (a' : Account (τ × List (Call α)) α) : Prop where
  untraced : a = a'.untraced
  evaluations_eq : a'.evaluations = residualCalls a'.target.2

/-- What is counted where a run ends.  Differences that break off count with all coordinates. -/
inductive Accounted (s : Solver α) : Termination → Nat → List (Call α) → Prop
  | counted {reason : Termination} {calls : List (Call α)} :
      s.epsfcn = none ∨ reason ≠ .user .jacobian → Accounted s reason (residualCalls calls) calls
  | broken {epsfcn : α} {x : Vec α} {m : Nat} {given : List (Vec α)} {missed : Option (Vec α)}
      {calls : List (Call α)} :
      s.epsfcn = some epsfcn → BreaksOff x.length m given missed →
        Accounted s (.user .jacobian) (residualCalls calls + x.length)
          (.setParams x :: (differenceCalls x epsfcn (List.range x.length)
            (given.map some ++ [missed])).reverse ++ calls)

def Closes (s : Solver α) (reason : Termination) (a : Account τ α)
    (a' : Account (τ × List (Call α)) α) : Prop :=
  a = a'.untraced ∧ Accounted s reason a'.evaluations a'.target.2

theorem Counted.closes (h : Counted a a') {reason : Termination}
    (hreason : reason ≠ .user .jacobian) :
    Closes s reason a a' := by
  refine ⟨h.untraced, ?_⟩
  rw [h.evaluations_eq]
  exact .counted (.inr hreason)

theorem Counted.orElse (h : Counted a a') {β : Type} {p : Prop} [Decidable p] {reason : Termination}
    (hreason : reason ≠ .user .jacobian) {rest : Stage τ α β}
    {rest' : Stage (τ × List (Call α)) α β}
    {post : β → Account τ α → Account (τ × List (Call α)) α → Prop}
    (hrest : Mirrors rest rest' a a' post (Closes s)) :
    Mirrors (if p then throw reason else rest) (if p then throw reason else rest') a a' post
      (Closes s) :=
  mirrors_ite.mpr ⟨fun _ => ⟨rfl, h.closes hreason⟩, fun _ => hrest⟩

omit [Scalar α] in
theorem mirrors_call {τ' β : Type} {act : StateM τ β} {act' : StateM τ' β} {b : Account τ' α}
    {post : β → Account τ α → Account τ' α → Prop}
    {stop : Termination → Account τ α → Account τ' α → Prop} :
    Mirrors (call act) (call act') a b post stop ↔
      (act a.target).1 = (act' b.target).1 ∧
        post (act a.target).1 { a with target := (act a.target).2 }
          { b with target := (act' b.target).2 } := Iff.rfl

theorem mirrors_evaluate (h : Counted a a') :
    Mirrors (evaluate norm t) (evaluate norm t.traced) a a' (fun _ => Counted) (Closes s) := by
  rcases h with ⟨rfl, hcount⟩
  unfold evaluate
  refine Mirrors.bind (M := fun _ a a' => a = a'.untraced ∧
    a'.evaluations = residualCalls a'.target.2 + 1) (mirrors_modify.mpr ⟨rfl, by simp [hcount]⟩) ?_
  rintro ⟨⟩ _ b ⟨rfl, hb⟩
  refine Mirrors.bind (M := fun _ => Counted) ?_ ?_
  · exact ⟨rfl, rfl, hb.trans (residualCalls_residuals _ _).symm⟩
  · rintro (_ | r) b b' hb
    · exact ⟨rfl, hb.closes (by simp)⟩
    · refine ⟨rfl, ?_, hb.evaluations_eq⟩
      rw [hb.untraced]
      rfl

theorem mirrors_jacobian (h : Counted a a') (it : Iterate α) :
    Mirrors (s.jacobian t it) (s.jacobian t.traced it) a a'
      (fun found a a' => match found with
        | some _ => Counted a a'
        | none => Closes s (.user .jacobian) a a') (Closes s) := by
  rcases h with ⟨rfl, hcount⟩
  unfold jacobian
  cases hdifferences : s.epsfcn with
  | none =>
      rw [mirrors_call]
      refine ⟨rfl, ?_⟩
      have hcounted : Counted (α := α) { a'.untraced with target := (t.jacobian a'.target.1).2 }
          { a' with target := (t.traced.jacobian a'.target).2 } :=
        ⟨rfl, hcount.trans (residualCalls_jacobian _ _).symm⟩
      split
      · exact hcounted
      · refine ⟨hcounted.untraced, ?_⟩
        rw [hcounted.evaluations_eq]
        exact .counted (.inl hdifferences)
  | some epsfcn =>
      refine Mirrors.bind (M := fun _ a a' => a = a'.untraced ∧
        a'.evaluations = residualCalls a'.target.2 + it.x.length)
        (mirrors_modify.mpr ⟨rfl, by simp [hcount]⟩) ?_
      rintro ⟨⟩ _ ⟨⟨target, calls⟩, evaluations, objective⟩ ⟨rfl, hcounted⟩
      dsimp only at hcounted
      subst hcounted
      obtain ⟨answers, hrun, hanswers⟩ :=
        forwardJacobian_traced t it.x it.residuals epsfcn target calls
      rw [mirrors_call]
      dsimp only [Account.untraced]
      rw [hrun]
      refine ⟨rfl, ?_⟩
      rcases hfound : t.forwardJacobian it.x it.residuals epsfcn target with
        ⟨_ | found, target'⟩ <;>
        rw [hfound] at hanswers
      · obtain ⟨given, missed, rfl, hbreaks⟩ := hanswers
        exact ⟨rfl, .broken hdifferences hbreaks⟩
      · have hlength : answers.length = it.x.length := hanswers
        refine ⟨rfl, ?_⟩
        simp only [residualCalls_setParams, residualCalls_append, residualCalls_reverse]
        rw [residualCalls_differenceCalls _ _ (by simp [hlength]), hlength, Nat.add_comm]

theorem mirrors_linearise (h : Counted a a') (it : Iterate α) :
    Mirrors (s.linearise norm t it) (s.linearise norm t.traced it) a a' (fun _ => Counted)
      (Closes s) := by
  unfold linearise
  refine (mirrors_jacobian h it).bind fun found b b' hfound => ?_
  cases found with
  | none => exact ⟨rfl, hfound⟩
  | some matrix =>
      replace hfound : Counted b b' := hfound
      simp only [throw_bind]
      refine hfound.orElse (by simp) (hfound.orElse (by simp) ?_)
      split
      · exact hfound.orElse (by simp) ⟨rfl, hfound⟩
      · exact ⟨rfl, hfound.closes (by simp)⟩

theorem mirrors_start (h : Counted a a') :
    Mirrors (start norm t) (start norm t.traced) a a' (fun _ => Counted) (Closes s) := by
  have hparams : t.params a.target = t.traced.params a'.target := by rw [h.untraced]; rfl
  unfold start
  rw [mirrors_get_bind, hparams]
  refine (mirrors_evaluate h).bind fun r b b' hb => ?_
  simp only [throw_bind]
  exact hb.orElse (by simp) (hb.orElse (by simp) (hb.orElse (by simp)
    (hb.orElse (by simp) ⟨rfl, hb⟩)))

theorem mirrors_firstTrust (h : Counted a a') (it : Iterate α) (lin : Linearisation α) :
    Mirrors (s.firstTrust norm it lin) (s.firstTrust norm it lin) a a' (fun _ => Counted)
      (Closes s) := by
  unfold firstTrust
  simp only [throw_bind]
  exact h.orElse (by simp) ⟨rfl, h⟩

theorem mirrors_compare (h : Counted a a') (system : DampedSystem α) (step : TrustStep α)
    (before after : α) :
    Mirrors (compare norm system step before after) (compare norm system step before after) a a'
      (fun _ => Counted) (Closes s) := by
  unfold compare
  simp only [throw_bind]
  exact h.orElse (by simp) ⟨rfl, h⟩

theorem mirrors_checkTrial (h : Counted a a') (c : Comparison α) (cosine length radius scale : α) :
    Mirrors (s.checkTrial c cosine length radius scale) (s.checkTrial c cosine length radius scale)
      a a' (fun _ => Counted) (Closes s) := by
  unfold checkTrial
  simp only [throw_bind]
  refine h.orElse (by simp) (h.orElse (by simp) (h.orElse (by simp)
    (h.orElse (by simp) (h.orElse (by simp) ?_))))
  have hevaluations : a.evaluations = a'.evaluations := by rw [h.untraced]; rfl
  rw [mirrors_get_bind, hevaluations]
  exact h.orElse (by simp) ⟨rfl, h⟩

theorem mirrors_setParams (h : Counted a a') (x : Vec α) :
    Mirrors (call (t.setParams x)) (call (t.traced.setParams x)) a a' (fun _ => Counted)
      (Closes s) := by
  rcases h with ⟨rfl, hcount⟩
  exact ⟨rfl, rfl, hcount.trans (residualCalls_setParams _ _).symm⟩

theorem mirrors_propose (h : Counted a a') (here : Position α) :
    Mirrors (propose norm t here) (propose norm t.traced here) a a' (fun _ => Counted)
      (Closes s) := by
  unfold propose
  simp only [throw_bind]
  refine h.orElse (by simp) ((mirrors_setParams h _).bind fun _ b b' hb => ?_)
  refine (mirrors_evaluate hb).bind fun r c c' hc => ?_
  refine hc.orElse (by simp) ((mirrors_compare hc _ _ _ _).bind fun _ d d' hd => ?_)
  exact ⟨rfl, hd⟩

theorem mirrors_accept (h : Counted a a') (cosine : α) (p : Proposal α) :
    Mirrors (s.accept norm cosine p) (s.accept norm cosine p) a a' (fun _ => Counted)
      (Closes s) := by
  unfold accept
  simp only [throw_bind]
  exact h.orElse (by simp) ((mirrors_checkTrial h _ _ _ _ _).bind fun _ _ _ hb => ⟨rfl, hb⟩)

theorem mirrors_reject (h : Counted a a') (here : Position α) (p : Proposal α) :
    Mirrors (s.reject t here p) (s.reject t.traced here p) a a' (fun _ => Counted)
      (Closes s) := by
  unfold reject
  refine (mirrors_setParams h _).bind fun _ b b' hb => ?_
  refine Mirrors.bind (M := fun _ => Counted) ?_ fun _ _ _ hc => mirrors_checkTrial hc _ _ _ _ _
  refine mirrors_modify.mpr ⟨?_, hb.evaluations_eq⟩
  rw [hb.untraced]
  rfl

/-! ## The run -/

theorem mirrors_setUp (h : Counted a a') :
    Mirrors (s.setUp norm t) (s.setUp norm t.traced) a a' (fun _ => Counted) (Closes s) := by
  unfold setUp
  refine (mirrors_start h).bind fun it b b' hb => ?_
  refine (mirrors_linearise hb it).bind fun lin c c' hc => ?_
  exact (mirrors_firstTrust hc it lin).bind fun _ _ _ hd => ⟨rfl, hd⟩

theorem mirrors_pass (h : Counted a a') (here : Position α) :
    Mirrors (s.pass norm t here) (s.pass norm t.traced here) a a' (fun _ => Counted)
      (Closes s) := by
  unfold pass
  refine (mirrors_propose h here).bind fun p b b' hb => ?_
  refine mirrors_ite.mpr ⟨fun _ => ?_, fun _ => ?_⟩
  · refine (mirrors_accept hb _ p).bind fun trust c c' hc => ?_
    exact (mirrors_linearise hc p.point).bind fun _ _ _ hd => ⟨rfl, hd⟩
  · exact (mirrors_reject hb here p).bind fun _ _ _ hc => ⟨rfl, hc⟩

theorem mirrors_passes (h : Counted a a') (more : Nat) (here : Position α) :
    Mirrors (s.passes norm t more here) (s.passes norm t.traced more here) a a' (Closes s)
      (Closes s) := by
  induction more generalizing here a a' with
  | zero => exact ⟨rfl, h.closes (by simp)⟩
  | succ more ih =>
      unfold passes
      exact (mirrors_pass h here).bind fun next _ _ hb => ih hb next

theorem mirrors_run (h : Counted a a') :
    Mirrors (s.run norm t) (s.run norm t.traced) a a' (Closes s) (Closes s) := by
  unfold run
  exact (mirrors_setUp h).bind fun here _ _ hb => mirrors_passes hb _ here

theorem minimize_traced (s : Solver α) (norm : Norm) (t : Target τ α) (start : τ) :
    ∃ report finish calls, s.minimize norm t start = (report, finish) ∧
      s.minimize norm t.traced (start, []) = (report, finish, calls) ∧
      Accounted s report.termination report.evaluations calls := by
  have hrun : Mirrors (s.run norm t) (s.run norm t.traced) ⟨start, 0, none⟩
      ⟨(start, []), 0, none⟩ (Closes s) (Closes s) := mirrors_run ⟨rfl, rfl⟩
  unfold Mirrors at hrun
  unfold minimize
  rcases hplain : s.run norm t ⟨start, 0, none⟩ with ⟨_ | _, a⟩ <;>
    rcases htraced : s.run norm t.traced ⟨(start, []), 0, none⟩ with ⟨_ | _, a'⟩ <;>
    rw [hplain, htraced] at hrun
  · obtain ⟨rfl, rfl, haccounted⟩ := hrun
    exact ⟨_, _, _, rfl, rfl, haccounted⟩
  · exact hrun.elim
  · exact hrun.elim
  · obtain ⟨rfl, rfl, haccounted⟩ := hrun
    exact ⟨_, _, _, rfl, rfl, haccounted⟩

/-- A list of the calls does not change a run, and tells what the report counts: how often
residuals were asked for, unless the run was given up in the middle of forward differences at some
point `x`.  Then those that were not asked for any more are counted as well. -/
theorem minimize_evaluations (s : Solver α) (norm : Norm) (t : Target τ α) (start : τ) :
    ∃ report finish calls, s.minimize norm t start = (report, finish) ∧
      s.minimize norm t.traced (start, []) = (report, finish, calls) ∧
      (s.epsfcn = none ∨ report.termination ≠ .user .jacobian →
        report.evaluations = residualCalls calls) ∧
      ∀ epsfcn, s.epsfcn = some epsfcn → report.termination = .user .jacobian →
        ∃ x m given missed earlier, BreaksOff x.length m given missed ∧
          calls = .setParams x :: (differenceCalls x epsfcn (List.range x.length)
            (given.map some ++ [missed])).reverse ++ earlier ∧
          report.evaluations = residualCalls calls + (x.length - (given.length + 1)) := by
  obtain ⟨report, finish, calls, hplain, htraced, haccounted⟩ := minimize_traced s norm t start
  refine ⟨report, finish, calls, hplain, htraced, ?_⟩
  generalize report.termination = reason at haccounted ⊢
  generalize report.evaluations = evaluations at haccounted ⊢
  cases haccounted with
  | counted hcounted =>
      refine ⟨fun _ => rfl, fun epsfcn hepsfcn hreason => ?_⟩
      rcases hcounted with hnone | hother
      · simp [hnone] at hepsfcn
      · exact absurd hreason hother
  | @broken epsfcn x m given missed earlier hepsfcn hbreaks =>
      refine ⟨fun hcounted => ?_, fun epsfcn' hepsfcn' _ => ?_⟩
      · simp [hepsfcn] at hcounted
      · obtain rfl : epsfcn = epsfcn' := by simpa [hepsfcn] using hepsfcn'
        refine ⟨x, m, given, missed, earlier, hbreaks, rfl, ?_⟩
        have hlt := hbreaks.length_lt
        simp only [List.cons_append, residualCalls_setParams, residualCalls_append,
          residualCalls_reverse]
        rw [residualCalls_differenceCalls _ _ (by simp; omega)]
        simp only [List.length_append, List.length_map, List.length_singleton]
        omega

def differencing : Solver Float := { new with epsfcn := some 1e-8 }

theorem minimize_evaluations_constant :
    ∃ report finish calls,
      differencing.minimize .plain scripted.traced (⟨[3], [some [2], some [2]], []⟩, []) =
        (report, finish, calls) ∧
      report.termination = .orthogonal ∧ report.evaluations = residualCalls calls ∧
      report.evaluations = 2 := by
  obtain ⟨report, finish, calls, -, hrun, hcounted, -⟩ :=
    minimize_evaluations differencing .plain scripted ⟨[3], [some [2], some [2]], []⟩
  have hends : (differencing.minimize .plain scripted.traced
      (⟨[3], [some [2], some [2]], []⟩, [])).1.termination = .orthogonal ∧
      (differencing.minimize .plain scripted.traced
        (⟨[3], [some [2], some [2]], []⟩, [])).1.evaluations = 2 := by
    decide +kernel
  rw [hrun] at hends
  obtain ⟨hreason, hevaluations⟩ :
      report.termination = .orthogonal ∧ report.evaluations = 2 := hends
  exact ⟨report, finish, calls, hrun, hreason, hcounted (.inr (by simp [hreason])), hevaluations⟩

theorem minimize_overcounts :
    (differencing.minimize .plain scripted.traced
      (⟨[1, 1], [some [1, 1], none], []⟩, [])).1.evaluations = 3 ∧
    residualCalls (differencing.minimize .plain scripted.traced
      (⟨[1, 1], [some [1, 1], none], []⟩, [])).2.2 = 2 := by
  decide +kernel

end Solver

end Minima
