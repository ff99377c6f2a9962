import Minima.LineSearch

/-!
# Backtracking

A step is accepted once it decreases the value by at least `alpha` times what
the slope promises while the step before it, longer by `1 / beta`, does not.
-/

namespace Minima

structure Backtracking (α : Type) where
  epsilon : α
  alpha : α
  beta : α

namespace Backtracking

variable {σ α : Type} [Scalar α]

def new (epsilon alpha beta : α) : Checked α (Backtracking α) :=
  if ¬(0 < alpha ∧ alpha < 0.5) then .error (.refused (.sufficientDecrease alpha))
  else if ¬(0 < beta ∧ beta < 1) then .error (.refused (.backtracking beta))
  else .ok ⟨epsilon, alpha, beta⟩

def usual : Backtracking α := ⟨1e-8, 0.05, 0.65⟩

def insufficient (b : Backtracking α) (value slope : α) (t : LineSearch.Trial α) : Bool :=
  decide (-b.alpha * t.step * slope < t.value - value)

/-- Whether the value at the trial before `t` was low enough for its step. -/
def previousFine (b : Backtracking α) (value slope previous : α) (t : LineSearch.Trial α) : Bool :=
  decide (previous - value ≤ -b.alpha * t.step * slope / b.beta)

def backtrack (b : Backtracking α) (P : Problem σ α) (direction : Vec α) (value slope : α) :
    (budget : Nat) → LineSearch.Trial α → Work σ α (LineSearch.Trial α × Bool)
  | budget, before => do
      let t ← LineSearch.trial P direction (before.step * b.beta)
      match budget with
      | 0 => return (t, false)
      | budget + 1 =>
          if b.insufficient value slope t || b.previousFine value slope before.value t then
            b.backtrack P direction value slope budget t
          else return (t, true)

def search (b : Backtracking α) (P : Problem σ α) (budget : Nat) (direction : Vec α)
    (step : α) : Work σ α (SearchResult α) := do
  let (value, slope) ← LineSearch.origin P direction
  let first ← LineSearch.trial P direction step
  let (t, succeeded) ←
    if b.insufficient value slope first then
      b.backtrack P direction value slope budget first
    else pure (first, true)
  LineSearch.finish P slope t succeeded

end Backtracking

end Minima
