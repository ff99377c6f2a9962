import Minima.LineSearch

/-!
# Bracketing

A step is accepted if it decreases the value by at least `alpha` and at most
`beta` times what the slope promises.  A step that decreases too little is the
right end of a bracket, one that decreases too much the left end.  Until a right
end is known steps are extrapolated; from then on the bracket is bisected.
-/

namespace Minima

structure Bracketing (α : Type) where
  epsilon : α
  alpha : α
  beta : α
  extrapolation : α

namespace Bracketing

variable {σ α : Type} [Scalar α]

def new (epsilon alpha beta extrapolation : α) : Checked α (Bracketing α) :=
  if ¬(0 < alpha ∧ alpha < beta ∧ beta < 1) then .error (.refused (.bracketing alpha beta))
  else if ¬1 < extrapolation then .error (.refused (.extrapolation extrapolation))
  else .ok ⟨epsilon, alpha, beta, extrapolation⟩

def usual : Bracketing α := ⟨1e-8, 0.05, 0.65, 1.5⟩

def tooShort (b : Bracketing α) (value slope : α) (t : LineSearch.Trial α) : Bool :=
  decide (t.value - value < -b.beta * t.step * slope)

def tooLong (b : Bracketing α) (value slope : α) (t : LineSearch.Trial α) : Bool :=
  decide (-b.alpha * t.step * slope < t.value - value)

def bracket (b : Bracketing α) (P : Problem σ α) (direction : Vec α) (value slope : α) :
    (budget : Nat) → (left right : α) → LineSearch.Trial α → Work σ α (LineSearch.Trial α × Bool)
  | budget, left, right, t => do
      let long := b.tooLong value slope t
      if !b.tooShort value slope t && !long then return (t, true)
      else
        let left := if long then left else t.step
        let right := if long then t.step else right
        let next := if right < b.epsilon then t.step * b.extrapolation else 0.5 * (left + right)
        let t ← LineSearch.trial P direction next
        match budget with
        | 0 => return (t, false)
        | budget + 1 => b.bracket P direction value slope budget left right t

def search (b : Bracketing α) (P : Problem σ α) (budget : Nat) (direction : Vec α)
    (step : α) : Work σ α (SearchResult α) := do
  let (value, slope) ← LineSearch.origin P direction
  let first ← LineSearch.trial P direction step
  let (t, succeeded) ← b.bracket P direction value slope budget 0 0 first
  LineSearch.finish P slope t succeeded

end Bracketing

end Minima
