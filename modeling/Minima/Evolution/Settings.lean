import Minima.Failure
import Minima.Vec

/-!
# Settings of differential evolution
-/

namespace Minima

/-- How mutants are made from a population, its best member and members `a`,
`b`, `c` taken in random order.  `F` is the step weight and `U` a fresh random
number between zero and one. -/
inductive Mutation where
  /-- The sum `c + F (a - b)`. -/
  | rand1Standard
  /-- The sum `best + (a - x) (F + 0.0001 U)`, with one number for each coordinate. -/
  | bestMemberWithJitter
  /-- The sum `x + F (best - x) + F (b - a)`. -/
  | currentToBest2Diffs
  /-- The sum `c + (F + (1 - F) U) (a - b)`, with one number for each coordinate. -/
  | rand1DiffWithPerVectorDither
  /-- The same with one number for all. -/
  | rand1DiffWithDither
  /-- Either `x + F (a - b)` or `x + (F + 1) / 2 (a + b - 2 c)`, the same for all members. -/
  | eitherOrWithOptimalRecombination
  /-- The sum `best + F_i (a - b)` with weights that adapt, or, for one member
  in ten, the coordinates of the best in random order. -/
  | rand1SelfadaptiveWithRotation
  deriving DecidableEq, Repr

inductive Crossover where
  | normal
  | binomial
  | exponential
  deriving DecidableEq, Repr

/-- The probability in dimension `n`: the crossover probability itself, its
mean with one weighted by `1 / n`, or the mean of its powers below the `n`th.  The exponent is a
number of 32 bits with a sign, and wraps. -/
def Crossover.mutationProbability {α : Type} [Scalar α] (c : Crossover) (cr : α) (n : Nat) : α :=
  match c with
  | normal => cr
  | binomial => cr * (1 - 1 / (n : α)) + 1 / (n : α)
  | exponential =>
      if Scalar.same cr 1 then 1
      else (1 - Scalar.powi cr (Int32.ofNat n).toInt) / ((n : α) * (1 - cr))

structure Evolution.Settings (α : Type) where
  mutation : Mutation
  crossover : Crossover
  members : Nat
  stepWeight : α
  crossoverProbability : α
  seed : UInt64
  /-- Whether coordinates outside the bounds are brought back between the bound
  and an anchor member. -/
  applyBounds : Bool
  /-- Whether crossover probabilities change at random from generation to generation. -/
  adaptive : Bool
  /-- Whether a member stays that is better than its offspring. -/
  greedy : Bool
  upper : Option (Vec α)
  lower : Option (Vec α)
  initial : Option (List (Vec α))

namespace Evolution.Settings

variable {α : Type} [Scalar α]

def usual : Settings α where
  mutation := .bestMemberWithJitter
  crossover := .normal
  members := 100
  stepWeight := 0.2
  crossoverProbability := 0.9
  seed := 0
  applyBounds := true
  adaptive := false
  greedy := true
  upper := none
  lower := none
  initial := none

def validate (c : Settings α) : Checked α Unit :=
  if ¬(0 ≤ c.stepWeight ∧ c.stepWeight ≤ 2.0) then .error (.invalid (.stepWeight c.stepWeight))
  else if ¬(0 ≤ c.crossoverProbability ∧ c.crossoverProbability ≤ 1) then
    .error (.invalid (.crossoverProbability c.crossoverProbability))
  else if c.members = 0 then .error (.invalid .emptyPopulation)
  else
    match c.initial with
    | some [] => .error (.invalid .emptyInitialPopulation)
    | _ => .ok ()

end Evolution.Settings

end Minima
