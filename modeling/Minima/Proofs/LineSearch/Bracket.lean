import Mathlib.Data.List.Chain
import Minima.Proofs.LineSearch.Free

/-!
# The bracket of a search

A bracketing search goes from one bracket to the next.  Each holds a trial and the ends
that were known when it was made.  `brackets` lists those of a loop in order; two that
follow each other are related by `Follows`, and the search ends with the trial of the
last one.

In exact arithmetic the step proposed after a trial that is too long is longer than it
only if its own step is taken for no right end, being below `epsilon`, or if the left end
lies beyond it.  Where neither happens no later step is longer.
-/

namespace Minima.Bracketing

open LineSearch

variable {σ α : Type} [Scalar α]

/-- A trial and the ends of the bracket before it is judged. -/
structure Bracket (α : Type) where
  left : α
  right : α
  trial : Trial α

/-! ## From one bracket to the next -/

def refuses (b : Bracketing α) (v slope : α) (t : Trial α) : Bool :=
  b.tooShort v slope t || b.tooLong v slope t

def narrowed (b : Bracketing α) (v slope : α) (s : Bracket α) : α × α :=
  if b.tooLong v slope s.trial then (s.left, s.trial.step) else (s.trial.step, s.right)

def proposed (b : Bracketing α) (v slope : α) (s : Bracket α) : α :=
  if (b.narrowed v slope s).2 < b.epsilon then s.trial.step * b.extrapolation
  else 0.5 * ((b.narrowed v slope s).1 + (b.narrowed v slope s).2)

def follower (b : Bracketing α) (v slope : α) (s : Bracket α) (t : Trial α) : Bracket α :=
  ⟨(b.narrowed v slope s).1, (b.narrowed v slope s).2, t⟩

variable (b : Bracketing α) (P : Problem σ α) (direction : Vec α) (v slope : α)

def goOn : (further : Nat) → Bracket α → Work σ α (Trial α × Bool)
  | 0, s => return (s.trial, false)
  | budget + 1, s => b.bracket P direction v slope budget s.left s.right s.trial

def brackets : (further : Nat) → Bracket α → Progress σ α → List (Bracket α)
  | 0, s, _ => [s]
  | further + 1, s, p =>
      if b.refuses v slope s.trial then
        match trial P direction (b.proposed v slope s) p with
        | (.error _, _) => [s]
        | (.ok t, p') => s :: brackets further (b.follower v slope s t) p'
      else [s]

def searchBrackets (budget : Nat) (step : α) (p : Progress σ α) : List (Bracket α) :=
  match origin P direction p with
  | (.error _, _) => []
  | (.ok (v, slope), p₁) =>
      match trial P direction step p₁ with
      | (.error _, _) => []
      | (.ok t, p₂) => b.brackets P direction v slope (budget + 1) ⟨0, 0, t⟩ p₂

/-- The bracket `s'` comes after `s` in a search from the point `x`. -/
structure Follows (x : Vec α) (s s' : Bracket α) : Prop where
  refused : b.refuses v slope s.trial = true
  eq_follower : s' = b.follower v slope s s'.trial
  move_eq : P.region.move x direction (b.proposed v slope s) = .ok (s'.trial.step, s'.trial.x)

variable {b v slope} in
theorem narrowed_of_tooLong {s : Bracket α} (h : b.tooLong v slope s.trial = true) :
    b.narrowed v slope s = (s.left, s.trial.step) := if_pos h

variable {b v slope} in
theorem narrowed_of_not_tooLong {s : Bracket α} (h : ¬ b.tooLong v slope s.trial = true) :
    b.narrowed v slope s = (s.trial.step, s.right) := if_neg h

theorem goOn_succ (further : Nat) (s : Bracket α) :
    b.goOn P direction v slope (further + 1) s =
      if b.refuses v slope s.trial then do
        let t ← trial P direction (b.proposed v slope s)
        b.goOn P direction v slope further (b.follower v slope s t)
      else return (s.trial, true) := by
  change b.bracket P direction v slope further s.left s.right s.trial = _
  conv_lhs => unfold bracket
  unfold follower proposed narrowed refuses
  cases b.tooShort v slope s.trial <;> cases b.tooLong v slope s.trial <;> cases further <;> rfl

variable {b P direction v slope} {further budget : Nat} {s : Bracket α} {t : Trial α}
  {p p' p₁ p₂ : Progress σ α} {e : Failure α} {step : α}

theorem brackets_of_not_refuses (h : b.refuses v slope s.trial = false) :
    b.brackets P direction v slope (further + 1) s p = [s] := by
  rw [brackets, h]
  rfl

theorem brackets_of_error
    (htrial : trial P direction (b.proposed v slope s) p = (.error e, p')) :
    b.brackets P direction v slope (further + 1) s p = [s] := by
  rw [brackets, htrial]
  exact ite_self _

theorem brackets_of_ok (h : b.refuses v slope s.trial = true)
    (htrial : trial P direction (b.proposed v slope s) p = (.ok t, p')) :
    b.brackets P direction v slope (further + 1) s p =
      s :: b.brackets P direction v slope further (b.follower v slope s t) p' := by
  rw [brackets, h, htrial]
  rfl

theorem searchBrackets_of_ok (horigin : origin P direction p = (.ok (v, slope), p₁))
    (htrial : trial P direction step p₁ = (.ok t, p₂)) :
    b.searchBrackets P direction budget step p =
      b.brackets P direction v slope (budget + 1) ⟨0, 0, t⟩ p₂ := by
  rw [searchBrackets, horigin]
  dsimp only
  rw [htrial]

theorem searchBrackets_of_error (horigin : origin P direction p = (.ok (v, slope), p₁))
    (htrial : trial P direction step p₁ = (.error e, p₂)) :
    b.searchBrackets P direction budget step p = [] := by
  rw [searchBrackets, horigin]
  dsimp only
  rw [htrial]

variable (b P direction v slope)

theorem exists_brackets_eq_cons (further : Nat) (s : Bracket α) (p : Progress σ α) :
    ∃ rest, b.brackets P direction v slope further s p = s :: rest := by
  cases further with
  | zero => exact ⟨[], rfl⟩
  | succ further =>
      unfold brackets
      split
      · split
        · exact ⟨[], rfl⟩
        · exact ⟨_, rfl⟩
      · exact ⟨[], rfl⟩

theorem brackets_isChain (further : Nat) (s : Bracket α) (p : Progress σ α) :
    (b.brackets P direction v slope further s p).IsChain
      (b.Follows P direction v slope p.point) := by
  induction further generalizing s p with
  | zero => exact List.isChain_singleton s
  | succ further ih =>
      unfold brackets
      split
      · rename_i hrefuses
        split
        · exact List.isChain_singleton s
        · rename_i t p' htrial
          obtain ⟨hmove, hasks⟩ := (leads_trial_asks P direction _ p).of_ok htrial
          obtain ⟨rest, hcons⟩ := exists_brackets_eq_cons b P direction v slope further
            (b.follower v slope s t) p'
          have hrest := ih (b.follower v slope s t) p'
          rw [hasks.stays.point_eq, hcons] at hrest
          rw [hcons]
          exact List.isChain_cons_cons.mpr ⟨⟨hrefuses, rfl, hmove⟩, hrest⟩
      · exact List.isChain_singleton s

theorem forall_searchBrackets {b : Bracketing α} {P : Problem σ α} {direction : Vec α}
    {v slope step : α} {p p₁ : Progress σ α} {K : Bracket α → Prop} (budget : Nat)
    (horigin : origin P direction p = (.ok (v, slope), p₁))
    (hstart : ∀ t, P.region.move p.point direction step = .ok (t.step, t.x) → K ⟨0, 0, t⟩)
    (hstep : ∀ ⦃s s'⦄, b.Follows P direction v slope p.point s s' → K s → K s') :
    (b.searchBrackets P direction budget step p).IsChain
        (b.Follows P direction v slope p.point) ∧
      ∀ s ∈ b.searchBrackets P direction budget step p, K s := by
  have ho := (leads_origin_asks P direction p).of_ok horigin
  rcases htrial : trial P direction step p₁ with ⟨answer, p₂⟩
  cases answer with
  | error e =>
      rw [searchBrackets_of_error horigin htrial]
      exact ⟨List.isChain_nil, nofun⟩
  | ok t =>
      obtain ⟨hmove, ht⟩ := (leads_trial_asks P direction step p₁).of_ok htrial
      rw [ho.stays.point_eq] at hmove
      obtain ⟨rest, hcons⟩ := exists_brackets_eq_cons b P direction v slope (budget + 1)
        ⟨0, 0, t⟩ p₂
      have hchain := brackets_isChain b P direction v slope (budget + 1) ⟨0, 0, t⟩ p₂
      rw [(ho.trans ht).stays.point_eq, hcons] at hchain
      rw [searchBrackets_of_ok horigin htrial, hcons]
      exact ⟨hchain, hchain.induction _ _ hstep fun _ => hstart t hmove⟩

/-- The loop asks for the value at each trial but the first, which it was given, and ends with
the last one. -/
theorem leads_goOn (further : Nat) (s : Bracket α) (p : Progress σ α) :
    Leads (b.goOn P direction v slope further s) p
      (fun found p' =>
        (b.brackets P direction v slope further s p).getLast?.map Bracket.trial = some found.1 ∧
        p'.valueCount + 1 = p.valueCount + (b.brackets P direction v slope further s p).length)
      (fun _ p' => p'.valueCount ≤
        p.valueCount + (b.brackets P direction v slope further s p).length) := by
  induction further generalizing s p with
  | zero => exact ⟨rfl, rfl⟩
  | succ further ih =>
      rw [goOn_succ, leads_ite]
      constructor
      · intro hrefuses
        rw [leads_bind]
        refine (leads_trial_asks P direction _ p).mono_run (fun t p' htrial h => ?_)
          (fun e p' htrial h => ?_)
        · have hcount := h.2.valueCount_eq
          obtain ⟨rest, hcons⟩ := exists_brackets_eq_cons b P direction v slope further
            (b.follower v slope s t) p'
          have hrest := ih (b.follower v slope s t) p'
          rw [brackets_of_ok hrefuses htrial]
          rw [hcons] at hrest ⊢
          refine hrest.mono (fun found p'' hfound => ?_) (fun _ p'' hfails => ?_)
          · rw [List.getLast?_cons_cons, List.length_cons]
            exact ⟨hfound.1, by omega⟩
          · rw [List.length_cons]
            omega
        · obtain ⟨values, hle, _, _, hasks⟩ := h
          rw [brackets_of_error htrial, hasks.valueCount_eq]
          exact Nat.add_le_add_left hle _
      · intro hfine
        rw [brackets_of_not_refuses ((Bool.not_eq_true _).mp hfine)]
        exact ⟨rfl, rfl⟩

theorem leads_search_brackets (budget : Nat) (step : α) (p : Progress σ α) :
    Leads (b.search P budget direction step) p
      (fun r p' =>
        (b.searchBrackets P direction budget step p).getLast?.map Bracket.trial = some r.trial ∧
        p'.valueCount = p.valueCount + valuesAtOrigin p +
          (b.searchBrackets P direction budget step p).length)
      (fun _ p' => p'.valueCount ≤ p.valueCount + valuesAtOrigin p +
        (b.searchBrackets P direction budget step p).length + 1) := by
  unfold search
  simp only [leads_bind]
  refine (leads_origin_asks P direction p).mono_run (fun o p₁ horigin ho => ?_)
    (fun _ p₁ _ ho => ?_)
  · refine (leads_trial_asks P direction step p₁).mono_run (fun t p₂ htrial ht => ?_)
      (fun e p₂ htrial ht => ?_)
    · rw [searchBrackets_of_ok horigin htrial]
      have hcount := (ho.trans ht.2).valueCount_eq
      refine (leads_goOn b P direction o.1 o.2 (budget + 1) ⟨0, 0, t⟩ p₂).mono
        (fun found p₃ h => ?_) (fun _ p₃ h => ?_)
      · refine (leads_finish_asks P o.2 found.1 found.2 p₃).mono (fun r p₄ hr => ?_)
          (fun _ p₄ hr => ?_)
        · have hstays := hr.2.2.2.valueCount_eq
          rw [hr.1]
          exact ⟨h.1, by omega⟩
        · have hstays := hr.valueCount_eq
          omega
      · omega
    · obtain ⟨values, hle, _, _, hasks⟩ := ht.after ho
      have hcount := hasks.valueCount_eq
      omega
  · have hcount := ho.valueCount_eq
    omega

/-! ## Steps in exact arithmetic -/

section Exact

variable {b : Bracketing ℝ} {P : Problem σ ℝ} {direction x : Vec ℝ} {v slope step : ℝ}
  {s s' : Bracket ℝ} {p p₁ : Progress σ ℝ}

structure Bracket.Positive (s : Bracket ℝ) : Prop where
  left : 0 ≤ s.left
  right : 0 ≤ s.right
  step : 0 < s.trial.step

theorem Bracket.Positive.proposed_pos (h : s.Positive) (hextrapolation : 1 < b.extrapolation) :
    0 < b.proposed v slope s := by
  have hstep := h.step
  unfold proposed
  split
  · exact mul_pos hstep (one_pos.trans hextrapolation)
  · by_cases hlong : b.tooLong v slope s.trial = true
    · rw [narrowed_of_tooLong hlong]
      linarith [h.left]
    · rw [narrowed_of_not_tooLong hlong]
      linarith [h.right]

theorem Follows.le_proposed (h : b.Follows P direction v slope x s s')
    (hpos : 0 < b.proposed v slope s) :
    0 < s'.trial.step ∧ s'.trial.step ≤ b.proposed v slope s := by
  refine (Region.move_eq_ok (S := fun t => 0 < t ∧ t ≤ b.proposed v slope s) (fun t ht => ?_)
    ⟨hpos, le_rfl⟩ h.move_eq).2
  constructor
  · linarith [ht.1]
  · linarith [ht.1, ht.2]

theorem Follows.left_eq (h : b.Follows P direction v slope x s s') :
    s'.left = (b.narrowed v slope s).1 := congrArg Bracket.left h.eq_follower

theorem Follows.right_eq (h : b.Follows P direction v slope x s s') :
    s'.right = (b.narrowed v slope s).2 := congrArg Bracket.right h.eq_follower

theorem Follows.positive (h : b.Follows P direction v slope x s s')
    (hextrapolation : 1 < b.extrapolation) (hs : s.Positive) : s'.Positive := by
  have hstep := (h.le_proposed (hs.proposed_pos hextrapolation)).1
  by_cases hlong : b.tooLong v slope s.trial = true
  · have hends := narrowed_of_tooLong hlong
    exact ⟨by rw [h.left_eq, hends]; exact hs.left, by rw [h.right_eq, hends]; exact hs.step.le,
      hstep⟩
  · have hends := narrowed_of_not_tooLong hlong
    exact ⟨by rw [h.left_eq, hends]; exact hs.step.le, by rw [h.right_eq, hends]; exact hs.right,
      hstep⟩

/-! ### After a trial that is too long -/

/-- A right end is known once the trial is judged, and neither end is beyond `bound`. -/
structure Known (b : Bracketing ℝ) (v slope bound : ℝ) (s : Bracket ℝ) : Prop where
  left : (b.narrowed v slope s).1 ≤ bound
  right : (b.narrowed v slope s).2 ≤ bound
  known : b.epsilon ≤ (b.narrowed v slope s).2

variable {bound : ℝ}

theorem known_of_tooLong (hlong : b.tooLong v slope s.trial = true)
    (hleft : s.left ≤ s.trial.step) (hknown : b.epsilon ≤ s.trial.step) :
    b.Known v slope s.trial.step s := by
  have hends := narrowed_of_tooLong hlong
  exact ⟨by rw [hends]; exact hleft, by rw [hends], by rw [hends]; exact hknown⟩

theorem Known.proposed_le (h : b.Known v slope bound s) : b.proposed v slope s ≤ bound := by
  rw [proposed, if_neg (not_lt.mpr h.known)]
  linarith [h.left, h.right]

theorem Known.of_follows (h : b.Known v slope bound s)
    (hfollows : b.Follows P direction v slope x s s') (hstep : s'.trial.step ≤ bound)
    (hknown : b.tooLong v slope s'.trial = true → b.epsilon ≤ s'.trial.step) :
    b.Known v slope bound s' := by
  by_cases hlong : b.tooLong v slope s'.trial = true
  · have hends := narrowed_of_tooLong hlong
    refine ⟨?_, by rw [hends]; exact hstep, by rw [hends]; exact hknown hlong⟩
    rw [hends, hfollows.left_eq]
    exact h.left
  · have hends := narrowed_of_not_tooLong hlong
    refine ⟨by rw [hends]; exact hstep, ?_, ?_⟩
    · rw [hends, hfollows.right_eq]
      exact h.right
    · rw [hends, hfollows.right_eq]
      exact h.known

theorem step_le_of_known (hextrapolation : 1 < b.extrapolation) (between : List (Bracket ℝ))
    (hchain : (s :: (between ++ [s'])).IsChain (b.Follows P direction v slope x))
    (hs : s.Positive) (h : b.Known v slope bound s)
    (hknown : ∀ q ∈ between, b.tooLong v slope q.trial = true → b.epsilon ≤ q.trial.step) :
    s'.trial.step ≤ bound := by
  -- `Known` is passed on along the chain, and bounds the proposal for the bracket after it
  induction between generalizing s with
  | nil =>
      have hfollows := List.isChain_pair.mp hchain
      exact (hfollows.le_proposed (hs.proposed_pos hextrapolation)).2.trans h.proposed_le
  | cons q between ih =>
      obtain ⟨hfollows, hrest⟩ := List.isChain_cons_cons.mp hchain
      have hq := (hfollows.le_proposed (hs.proposed_pos hextrapolation)).2.trans h.proposed_le
      obtain ⟨hhere, hlater⟩ := List.forall_mem_cons.mp hknown
      exact ih hrest (hfollows.positive hextrapolation hs) (h.of_follows hfollows hq hhere) hlater

theorem lt_proposed_iff (hextrapolation : 1 < b.extrapolation) (hs : s.Positive)
    (hlong : b.tooLong v slope s.trial = true) :
    s.trial.step < b.proposed v slope s ↔
      s.trial.step < b.epsilon ∨ s.trial.step < s.left := by
  rw [proposed, narrowed_of_tooLong hlong]
  split
  · rename_i hsmall
    exact ⟨fun _ => .inl hsmall, fun _ => lt_mul_of_one_lt_right hs.step hextrapolation⟩
  · rename_i hlarge
    constructor
    · intro hlt
      right
      linarith
    · rintro (hsmall | hlt)
      · exact absurd hsmall hlarge
      · linarith

/-! ### Steps that are not shortened -/

/-- The left end is not beyond the trial, nor is the trial beyond a right end that is known. -/
structure Bracket.Ordered (b : Bracketing ℝ) (s : Bracket ℝ) : Prop where
  left : s.left ≤ s.trial.step
  right : b.epsilon ≤ s.right → s.trial.step ≤ s.right

theorem Follows.ordered (h : b.Follows P direction v slope x s s')
    (hfree : s'.trial.step = b.proposed v slope s) (hextrapolation : 1 < b.extrapolation)
    (hs : s.Positive) (hordered : s.Ordered b) : s'.Ordered b := by
  have hgrows : s.trial.step ≤ s.trial.step * b.extrapolation :=
    (lt_mul_of_one_lt_right hs.step hextrapolation).le
  have hleft := hordered.left
  by_cases hlong : b.tooLong v slope s.trial = true
  · have hends := narrowed_of_tooLong hlong
    rw [proposed, hends] at hfree
    refine ⟨?_, fun hknown => ?_⟩
    · rw [h.left_eq, hends, hfree]
      split
      · exact hleft.trans hgrows
      · linarith
    · rw [h.right_eq, hends] at hknown ⊢
      rw [hfree, if_neg (not_lt.mpr hknown)]
      linarith
  · have hends := narrowed_of_not_tooLong hlong
    rw [proposed, hends] at hfree
    refine ⟨?_, fun hknown => ?_⟩
    · rw [h.left_eq, hends, hfree]
      split
      · exact hgrows
      · rename_i hknown
        linarith [hordered.right (not_lt.mp hknown)]
    · rw [h.right_eq, hends] at hknown ⊢
      rw [hfree, if_neg (not_lt.mpr hknown)]
      linarith [hordered.right hknown]

/-! ### Searches -/

theorem positive_of_move (hstep : 0 < step) {t : Trial ℝ}
    (h : P.region.move x direction step = .ok (t.step, t.x)) :
    (Bracket.mk 0 0 t).Positive where
  left := le_rfl
  right := le_rfl
  step := (Region.move_eq_ok (S := (0 < ·)) (fun t ht => by linarith) hstep h).2

/-- For any objective and region: a search lists its brackets, one for each value that it asks
for on the way.  Once a trial is too long, no later one has a longer step, as long as its left
end is not beyond it and no trial from then on is too long with a step below `epsilon`.  The
step proposed after it is longer exactly if one of these fails for it.  Without a condition on
the points, and with `epsilon` positive, the left end is never beyond the trial. -/
theorem search_steps_not_longer (budget : Nat) (hextrapolation : 1 < b.extrapolation)
    (hstep : 0 < step) (horigin : origin P direction p = (.ok (v, slope), p₁)) :
    Leads (b.search P budget direction step) p
      (fun r p' =>
        (b.searchBrackets P direction budget step p).getLast?.map Bracket.trial = some r.trial ∧
        p'.valueCount = p.valueCount + valuesAtOrigin p +
          (b.searchBrackets P direction budget step p).length)
      (fun _ p' => p'.valueCount ≤ p.valueCount + valuesAtOrigin p +
        (b.searchBrackets P direction budget step p).length + 1) ∧
    (∀ before s between s' after,
      b.searchBrackets P direction budget step p = before ++ s :: (between ++ s' :: after) →
      b.tooLong v slope s.trial = true → s.left ≤ s.trial.step →
      (∀ q ∈ s :: between, b.tooLong v slope q.trial = true → b.epsilon ≤ q.trial.step) →
      s'.trial.step ≤ s.trial.step) ∧
    (∀ s ∈ b.searchBrackets P direction budget step p, b.tooLong v slope s.trial = true →
      (s.trial.step < b.proposed v slope s ↔
        s.trial.step < b.epsilon ∨ s.trial.step < s.left)) ∧
    (P.region = Constraint.none.region → 0 < b.epsilon →
      ∀ s ∈ b.searchBrackets P direction budget step p, s.left ≤ s.trial.step) := by
  obtain ⟨hchain, hpositive⟩ := forall_searchBrackets budget horigin
    (fun _ h => positive_of_move hstep h) (fun _ _ h => h.positive (b := b) hextrapolation)
  refine ⟨leads_search_brackets b P direction budget step p, ?_, ?_, ?_⟩
  · intro before s between s' after hsplit hlong hleft hknown
    obtain ⟨hhere, hlater⟩ := List.forall_mem_cons.mp hknown
    have hs : s.Positive := hpositive s (by rw [hsplit]; simp)
    rw [hsplit] at hchain
    have hpart : (s :: (between ++ [s'])).IsChain (b.Follows P direction v slope p.point) := by
      refine hchain.infix ⟨before, after, ?_⟩
      simp
    exact step_le_of_known hextrapolation between hpart hs
      (known_of_tooLong hlong hleft (hhere hlong)) hlater
  · intro s hs hlong
    exact lt_proposed_iff hextrapolation (hpositive s hs) hlong
  · intro hfree hepsilon s hs
    have hcontains (y : Vec ℝ) : P.region.contains y = true := by rw [hfree]; rfl
    refine ((forall_searchBrackets (K := fun s => s.Positive ∧ s.Ordered b) budget
      horigin (fun t h => ?_) (fun s s' h hs => ?_)).2 s hs).2.left
    · have hpos := positive_of_move hstep h
      exact ⟨hpos, hpos.step.le, fun hknown => absurd hknown (not_le.mpr hepsilon)⟩
    · exact ⟨h.positive hextrapolation hs.1,
        h.ordered (Region.eq_of_move (hcontains _) h.move_eq) hextrapolation hs.1 hs.2⟩

end Exact

/-! ## A parabola from the point one -/

section Parabola

theorem searchBrackets_parabola {d t : ℝ} (budget : Nat)
    (hlong : (Bracketing.usual : Bracketing ℝ).tooLong 1 (-(2 * d)) (onParabola d t) = true) :
    ∃ p₁ rest, origin parabola [d] atOne = (.ok (1, -(2 * d)), p₁) ∧
      (Bracketing.usual : Bracketing ℝ).searchBrackets parabola [d] budget t atOne =
        ⟨0, 0, onParabola d t⟩ ::
          ⟨0, t, onParabola d (Bracketing.usual.proposed 1 (-(2 * d)) ⟨0, 0, onParabola d t⟩)⟩ ::
            rest := by
  obtain ⟨p₁, horigin, hp₁⟩ := origin_parabola d
  obtain ⟨p₂, hfirst, hp₂⟩ := trial_parabola d t hp₁
  obtain ⟨p₃, hsecond, -⟩ := trial_parabola d
    (Bracketing.usual.proposed 1 (-(2 * d)) ⟨0, 0, onParabola d t⟩) hp₂
  have hrefuses : (Bracketing.usual : Bracketing ℝ).refuses 1 (-(2 * d)) (onParabola d t) = true :=
    Bool.or_eq_true_iff.mpr (.inr hlong)
  obtain ⟨rest, hrest⟩ := exists_brackets_eq_cons Bracketing.usual parabola [d] 1 (-(2 * d)) budget
    (Bracketing.usual.follower 1 (-(2 * d)) ⟨0, 0, onParabola d t⟩ (onParabola d
      (Bracketing.usual.proposed 1 (-(2 * d)) ⟨0, 0, onParabola d t⟩))) p₃
  refine ⟨p₁, rest, horigin, ?_⟩
  rw [searchBrackets_of_ok horigin hfirst, brackets_of_ok hrefuses hsecond, hrest, follower,
    narrowed_of_tooLong hlong]
  rfl

theorem search_steps_not_longer_parabola :
    ∃ s s' rest, (Bracketing.usual : Bracketing ℝ).searchBrackets parabola [-2] 20 1 atOne =
        s :: s' :: rest ∧
      (Bracketing.usual : Bracketing ℝ).tooLong 1 4 s.trial = true ∧ s.left ≤ s.trial.step ∧
      (Bracketing.usual : Bracketing ℝ).epsilon ≤ s.trial.step ∧
      s'.trial.step ≤ s.trial.step := by
  have hslope : -(2 * (-2 : ℝ)) = 4 := by norm_num
  have hlong : (Bracketing.usual : Bracketing ℝ).tooLong 1 4 (onParabola (-2) 1) = true := by
    norm_num [tooLong, Bracketing.usual, onParabola]
  have hknown : (Bracketing.usual : Bracketing ℝ).epsilon ≤ (onParabola (-2) 1).step := by
    norm_num [Bracketing.usual, onParabola]
  have hextrapolation : 1 < (Bracketing.usual : Bracketing ℝ).extrapolation := by
    norm_num [Bracketing.usual]
  obtain ⟨p₁, rest, horigin, hbrackets⟩ := searchBrackets_parabola 20 (hslope ▸ hlong)
  rw [hslope] at horigin hbrackets
  have hleft : (0 : ℝ) ≤ (onParabola (-2) 1).step := zero_le_one
  obtain ⟨-, hlaw, -⟩ := search_steps_not_longer 20 hextrapolation one_pos horigin
  exact ⟨_, _, rest, hbrackets, hlong, hleft, hknown,
    hlaw [] _ [] _ rest hbrackets hlong hleft (List.forall_mem_singleton.mpr fun _ => hknown)⟩

/-- Along a steep direction a step below `epsilon` is too long, and the next one is longer. -/
theorem search_lengthens_parabola :
    ∃ p₁ slope s s' rest, origin parabola [-2e10] atOne = (.ok (1, slope), p₁) ∧ 0 < slope ∧
      (Bracketing.usual : Bracketing ℝ).searchBrackets parabola [-2e10] 20 1e-9 atOne =
        s :: s' :: rest ∧
      (Bracketing.usual : Bracketing ℝ).tooLong 1 slope s.trial = true ∧
      s.trial.step < s'.trial.step := by
  have hlong : (Bracketing.usual : Bracketing ℝ).tooLong 1 (-(2 * (-2e10)))
      (onParabola (-2e10) 1e-9) = true := by
    norm_num [tooLong, Bracketing.usual, onParabola]
  have hlonger : (1e-9 : ℝ) < (Bracketing.usual : Bracketing ℝ).proposed 1 (-(2 * (-2e10)))
      ⟨0, 0, onParabola (-2e10) 1e-9⟩ := by
    rw [proposed, narrowed_of_tooLong hlong]
    norm_num [Bracketing.usual, onParabola]
  obtain ⟨p₁, rest, horigin, hbrackets⟩ := searchBrackets_parabola 20 hlong
  exact ⟨p₁, _, _, _, rest, horigin, by norm_num, hbrackets, hlong, hlonger⟩

end Parabola

end Minima.Bracketing
