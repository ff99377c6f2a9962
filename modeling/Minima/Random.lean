import Minima.Scalar

/-!
# Random draws

A source hands out random words of 64 and of 32 bits.  From these are drawn
numbers strictly between zero and one, indices below a bound, and shuffles.
-/

namespace Minima

class RandomSource (ρ : Type) where
  next64 : ρ → UInt64 × ρ
  next32 : ρ → UInt32 × ρ

namespace Random

variable {ρ : Type} [RandomSource ρ]

def word64 : StateM ρ UInt64 := fun r => RandomSource.next64 r

def word32 : StateM ρ UInt32 := fun r => RandomSource.next32 r

def fractionBits : Nat := 53

/-- The odd multiple of `2 ^ -53` given by the upper bits of a word, which lies
strictly between zero and one. -/
def fraction {α : Type} [Scalar α] (w : UInt64) : α :=
  ((2 * (w.toNat >>> (65 - fractionBits)) + 1 : Nat) : α) / ((1 <<< fractionBits : Nat) : α)

def uniform {α : Type} [Scalar α] : StateM ρ α := do return fraction (← word64)

/-- The largest number below `2 ^ 32` of the form `k * 2 ^ s - 1`. -/
def zone (k : Nat) : Nat := (k <<< (31 - k.log2)) - 1

/-- How many words in a row may be refused before a source counts as stuck. -/
def patience : Nat := 1000000

/-- An index below `k`: the upper half of a word times `k`, for the first word
with a lower half inside the zone, so that every index is equally likely. -/
def below (k : Nat) : StateM ρ Nat :=
  go patience
where
  go : Nat → StateM ρ Nat
    | 0 => return 0
    | tries + 1 => do
        let product := (← word32).toNat * k
        if product % (1 <<< 32) ≤ zone k then return product >>> 32 else go tries

def shuffle {β : Type} (l : List β) : StateM ρ (List β) := do
  return (← go (l.length - 1) l.toArray).toList
where
  go : Nat → Array β → StateM ρ (Array β)
    | 0, a => return a
    | i + 1, a => do
        let j ← below (i + 2)
        go i (a.swapIfInBounds (i + 1) j)

def permutation (n : Nat) : StateM ρ (List Nat) := shuffle (List.range n)

end Random

end Minima
