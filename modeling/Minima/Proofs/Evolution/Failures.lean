import Minima.Proofs.Evolution.Runs
import Minima.Proofs.Failures

/-!
# Failures of differential evolution

Candidates that cannot be evaluated survive with an infinite cost, so a run is told of an error
by its checks alone: of the dimension, of the box and of the first members.  Members are checked
one after the other, each before it is evaluated.
-/

namespace Minima.Evolution

variable {ρ σ α β : Type}

/-! ## Members -/

def checkMember (region : Region α) (n : Nat) (x : Vec α) : Checked α Unit :=
  if x.length ≠ n then .error (.invalid (.memberLength x.length n))
  else if !region.contains x then .error (.error .infeasibleStart)
  else .ok ()

theorem contains_of_checkMember {region : Region α} {n : Nat} {x : Vec α}
    (h : checkMember region n x = .ok ()) : region.contains x = true := by
  unfold checkMember at h
  split at h
  · cases h
  split at h
  · cases h
  · rename_i hcontains
    simpa using hcontains

theorem contains_of_checkMember_infeasible {region : Region α} {n : Nat} {x : Vec α}
    (h : checkMember region n x = .error (.error .infeasibleStart)) :
    region.contains x = false := by
  unfold checkMember at h
  split at h
  · cases h
  split at h
  · rename_i hcontains
    simpa using hcontains
  · cases h

theorem forM_checkMember {region : Region α} {n : Nat} {x : Vec α} {front : List (Vec α)}
    {e : Failure α}
    (hfront : ∀ y ∈ front, checkMember region n y = .ok ())
    (hx : checkMember region n x = .error e) (back : List (Vec α)) :
    (front ++ x :: back).forM (checkMember region n) = .error e := by
  induction front with
  | nil =>
      change (checkMember region n x >>= fun _ => back.forM (checkMember region n)) = _
      rw [hx]
      rfl
  | cons y front ih =>
      obtain ⟨hy, hfront⟩ := List.forall_mem_cons.mp hfront
      change (checkMember region n y >>= fun _ =>
        (front ++ x :: back).forM (checkMember region n)) = _
      rw [hy]
      exact ih hfront

variable [Scalar α] {P : Problem σ α}

structure TurnsAway (region : Region α) (n : Nat) (front : List (Vec α)) (x : Vec α)
    (e : Failure α) (s s' : Session (σ × List (Entry α)) (Evolution ρ α) α) : Prop where
  front_eq_ok : ∀ y ∈ front, checkMember region n y = .ok ()
  eq_error : checkMember region n x = .error e
  point_eq : s'.progress.point = s.progress.point
  ledger : ∃ made, s'.progress.oracle.2 = made ++ s.progress.oracle.2 ∧
    made.map Entry.point = front.reverse

variable {c : Parts σ α} {region : Region α} {s : Session (σ × List (Entry α)) (Evolution ρ α) α}
  {x : Vec α} {n : Nat}

theorem leads_evaluate_entered :
    Leads (evaluate ⟨c.entered.objective, region⟩ x) s
      (fun _ s' => s'.progress.point = s.progress.point ∧
        ∃ failure, s'.progress.oracle.2 = ⟨x, failure⟩ :: s.progress.oracle.2)
      (fun e _ => ∀ cause, e ≠ .error cause) := by
  have hentered : ∃ failure, (c.entered.objective.value x s.progress.oracle).2.2 =
      ⟨x, failure⟩ :: s.progress.oracle.2 := ⟨_, rfl⟩
  unfold Leads evaluate
  rw [work_value_apply]
  cases (c.entered.objective.value x s.progress.oracle).1 with
  | ok v => exact ⟨rfl, hentered⟩
  | error e =>
      cases e with
      | error e => exact ⟨rfl, hentered⟩
      | sizeMismatch => exact nofun
      | refused r => exact nofun

theorem enter_eq (P : Problem σ α) (n : Nat) (x : Vec α) :
    (enter P n x : Run σ (Evolution ρ α) α _) =
      attempt (checkMember P.region n x) >>= fun _ => evaluate P x := by
  unfold enter checkMember
  by_cases hlength : x.length ≠ n
  · simp only [if_pos hlength]
    rfl
  by_cases hcontains : (!P.region.contains x) = true
  · simp only [if_neg hlength, if_pos hcontains]
    rfl
  · simp only [if_neg hlength, if_neg hcontains]
    rfl

theorem leads_mapM_enter_turnsAway (members : List (Vec α)) :
    Leads (members.mapM (enter ⟨c.entered.objective, region⟩ n)) s
      (fun made _ => made.length = members.length)
      (fun e s' => (∀ cause, e ≠ .error cause) ∨
        ∃ front x back, members = front ++ x :: back ∧ TurnsAway region n front x e s s') := by
  induction members generalizing s with
  | nil => rfl
  | cons x members ih =>
      rw [List.mapM_cons, enter_eq, leads_bind, leads_bind, leads_attempt]
      cases hcheck : checkMember region n x with
      | error e => exact .inr ⟨[], x, members, rfl, nofun, hcheck, rfl, [], rfl, rfl⟩
      | ok _ =>
          refine leads_evaluate_entered.mono ?_ fun _ _ h => .inl h
          rintro candidate s₁ ⟨hpoint, failure, hledger⟩
          rw [leads_bind]
          refine ih.mono (fun made s₂ hmade => ?_) ?_
          · rw [leads_pure, List.length_cons, List.length_cons, hmade]
          · rintro e s₂ (h | ⟨front, y, back, rfl, haway⟩)
            · exact .inl h
            obtain ⟨made, hmade, hpoints⟩ := haway.ledger
            refine .inr ⟨x :: front, y, back, rfl, List.forall_mem_cons.mpr
              ⟨hcheck, haway.front_eq_ok⟩, haway.eq_error, haway.point_eq.trans hpoint,
              made ++ [⟨x, failure⟩], ?_, ?_⟩
            · rw [hmade, hledger, List.append_assoc, List.singleton_append]
            · rw [List.map_append, hpoints, List.reverse_cons, List.map_singleton]

/-! ## Generations -/

variable [RandomSource ρ]

theorem upholds_generations (s : Setup α) (more generation : Nat) (state : State α) :
    Upholds (fun _ : Session σ (Evolution ρ α) α => True) (fun e _ => ∀ cause, e ≠ .error cause)
      (generations P s more generation state) := by
  have hpass (generation : Nat) (state : State α) :
      Upholds (fun _ : Session σ (Evolution ρ α) α => True) (fun e _ => ∀ cause, e ≠ .error cause)
        (pass P s generation state) := by
    refine Upholds.bind (fun _ h => h) fun _ => .ite (upholds_pure _) ?_
    refine (upholds_nextGeneration (endures_errors P) (fun _ h => h) s state).bind fun _ => ?_
    exact Upholds.bind (fun _ h => h) fun _ => upholds_pure _
  induction more generalizing generation state with
  | zero => exact upholds_pure _
  | succ more ih => exact (hpass _ _).bind fun r => .ite (ih _ _) (upholds_pure _)

/-! ## Admission -/

def membersCheck (region : Region α) (initial : Option (List (Vec α))) (x : Vec α) :
    Checked α Unit :=
  match initial with
  | none => if !region.contains x then .error (.error .infeasibleStart) else .ok ()
  | some [] => .error (.invalid .emptyPopulation)
  | some (member :: members) => (member :: members).forM (checkMember region x.length)

def startCheck (region : Region α) (settings : Settings α) (x : Vec α) : Checked α Unit :=
  if x.isEmpty then .error (.invalid .noParameters)
  else setup region settings x >>= fun _ => membersCheck region settings.initial x

/-- Nothing has been evaluated, or a given member is turned away. -/
def Halts (region : Region α) (given : List (Vec α)) (e : Failure α)
    (s s' : Session (σ × List (Entry α)) (Evolution ρ α) α) : Prop :=
  (s'.progress.point = s.progress.point ∧ s'.progress.oracle = s.progress.oracle) ∨
    ∃ front x back, given = front ++ x :: back ∧
      TurnsAway region s.progress.point.length front x e s s'

theorem leads_firstPopulation_admits {box : Setup α} :
    Leads (firstPopulation ⟨c.entered.objective, region⟩ box) s
      (fun made s' => made = [] → s'.progress = s.progress ∧
        membersCheck region box.settings.initial s.progress.point =
          .error (.invalid .emptyPopulation))
      (fun e s' => (∀ cause, e ≠ .error cause) ∨
        (membersCheck region box.settings.initial s.progress.point = .error e ∧
          Halts region (box.settings.initial.getD []) e s s')) := by
  unfold firstPopulation
  rw [leads_bind, leads_get]
  cases hinitial : box.settings.initial with
  | none =>
      simp only [leads_ite, leads_bind, leads_throw, leads_pure]
      refine ⟨fun hnot => .inr ⟨if_pos hnot, .inl ⟨rfl, rfl⟩⟩, fun _ => ?_⟩
      refine leads_evaluate_entered.mono (fun first s₁ _ => ?_) fun _ _ h => .inl h
      exact (upholds_randomMembers (endures_errors _) _ _ s₁ trivial).mono
        (fun _ _ _ => by rintro ⟨⟩) fun _ _ h => .inl h
  | some members =>
      refine (leads_mapM_enter_turnsAway members).mono_run (fun made s' hrun hmade => ?_) ?_
      · rintro rfl
        obtain rfl := List.length_eq_zero_iff.mp hmade.symm
        cases hrun
        exact ⟨rfl, rfl⟩
      · rintro e s' - (h | ⟨front, x, back, rfl, haway⟩)
        · exact .inl h
        refine .inr ⟨?_, .inr ⟨front, x, back, rfl, haway⟩⟩
        have herror := forM_checkMember haway.front_eq_ok haway.eq_error back
        cases front with
        | nil => exact herror
        | cons y front => exact herror

theorem leads_start_admits :
    Leads (start ⟨c.entered.objective, region⟩) s (fun _ _ => True)
      (fun e s' => (∀ cause, e ≠ .error cause) ∨
        (startCheck region s.memory.settings s.progress.point = .error e ∧
          Halts region (s.memory.settings.initial.getD []) e s s')) := by
  have hcheck (hnot : ¬ s.progress.point.isEmpty = true) {box : Setup α}
      (hsetup : setup region s.memory.settings s.progress.point = .ok box) :
      startCheck region s.memory.settings s.progress.point =
        membersCheck region s.memory.settings.initial s.progress.point := by
    unfold startCheck
    rw [if_neg hnot, hsetup]
    rfl
  unfold start
  simp only [leads_bind, leads_reset, leads_get, leads_ite, leads_throw, leads_attempt,
    Progress.reset]
  refine ⟨fun hempty => .inr ⟨if_pos hempty, .inl ⟨rfl, rfl⟩⟩, fun hempty => ?_⟩
  cases hsetup : setup region s.memory.settings s.progress.point with
  | error e =>
      refine .inr ⟨?_, .inl ⟨rfl, rfl⟩⟩
      unfold startCheck
      rw [if_neg hempty, hsetup]
      rfl
  | ok box =>
      have hsettings := (setup_eq_ok hsetup).1
      simp only [leads_remember, box_eq hsettings]
      rw [hcheck hempty hsetup, ← hsettings]
      refine leads_firstPopulation_admits.mono (fun made s₁ hmade => ?_) fun e s₁ h => ?_
      · cases hfront : bestToFront made with
        | nil =>
            obtain ⟨hprogress, herror⟩ := hmade ((hfront ▸ bestToFront_perm made).nil_eq).symm
            refine .inr ⟨herror, .inl ?_⟩
            rw [hprogress]
            exact ⟨rfl, rfl⟩
        | cons first rest => trivial
      · refine h.imp id (And.imp_right fun hhalts => hhalts.imp id ?_)
        rintro ⟨front, x, back, hgiven, haway⟩
        exact ⟨front, x, back, hgiven,
          { front_eq_ok := haway.front_eq_ok
            eq_error := haway.eq_error
            point_eq := haway.point_eq
            ledger := haway.ledger }⟩

/-- A run that reports an error has been turned down by a check of its start. -/
theorem minimize_admits :
    Leads (minimize ⟨c.entered.objective, region⟩) s (fun _ _ => True)
      (fun e s' => (∀ cause, e ≠ .error cause) ∨
        (startCheck region s.memory.settings s.progress.point = .error e ∧
          Halts region (s.memory.settings.initial.getD []) e s s')) := by
  unfold minimize
  refine leads_start_admits.bind ?_
  rintro ⟨box, first⟩ s₁ -
  rw [leads_bind, leads_get, leads_bind]
  exact (upholds_generations box _ 0 first s₁ trivial).mono (fun _ _ _ => trivial)
    fun _ _ h => .inl h

end Minima.Evolution
