import Minima.Random
import Minima.Random.ChaCha

/-!
# Generators

The sources of random words: a counter whose values are scrambled, given words
in a cycle, and a ChaCha stream.  The first two make a word of 32 bits from the
upper half of one of 64.
-/

namespace Minima

inductive Generator where
  | counter (state : UInt64)
  /-- The words still to come before the cycle starts again with `all`. -/
  | cycle (all left : List UInt64)
  | stream (state : ChaCha)

namespace Generator

def gamma : UInt64 := 0x9E3779B97F4A7C15

def scramble (z : UInt64) : UInt64 :=
  let z := (z ^^^ (z >>> 30)) * 0xBF58476D1CE4E5B9
  let z := (z ^^^ (z >>> 27)) * 0x94D049BB133111EB
  z ^^^ (z >>> 31)

def next64 : Generator → UInt64 × Generator
  | counter state => (scramble (state + gamma), counter (state + gamma))
  | cycle all left =>
      match left, all with
      | w :: left, _ => (w, cycle all left)
      | [], w :: rest => (w, cycle all rest)
      | [], [] => (0, cycle [] [])
  | stream state =>
      let (w, state) := state.next64
      (w, stream state)

def next32 : Generator → UInt32 × Generator
  | stream state =>
      let (w, state) := state.next32
      (w, stream state)
  | g =>
      let (w, g) := g.next64
      ((w >>> 32).toUInt32, g)

instance : RandomSource Generator := ⟨next64, next32⟩

def ofSeed (seed : UInt64) : Generator := stream (ChaCha.ofSeed seed)

end Generator

end Minima
