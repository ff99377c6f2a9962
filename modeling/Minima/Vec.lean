import Minima.Scalar

/-!
# Vectors

A vector is the list of its coordinates.  The two inner products differ only in
the order of their additions: `dot` adds from left to right, `laneDot` keeps
eight running sums, one for each residue of the position modulo eight, and adds
the coordinates that do not fill a block of eight at the end.  Below eight
coordinates they agree; in exact arithmetic they always do.
-/

namespace Minima

abbrev Vec (α : Type) := List α

namespace Vec

variable {α : Type} [Scalar α]

def zeros (n : Nat) : Vec α := List.replicate n 0

def unit (n i : Nat) : Vec α := (zeros n).set i 1

def add (a b : Vec α) : Vec α := List.zipWith (· + ·) a b

def sub (a b : Vec α) : Vec α := List.zipWith (· - ·) a b

def neg (a : Vec α) : Vec α := a.map fun x => -x

def scale (s : α) (a : Vec α) : Vec α := a.map fun x => x * s

def divide (a : Vec α) (s : α) : Vec α := a.map fun x => x / s

def mul (a b : Vec α) : Vec α := List.zipWith (· * ·) a b

/-- `accumulate s a b` is `s a + b`. -/
def accumulate (s : α) (a b : Vec α) : Vec α := List.zipWith (fun x y => s * x + y) a b

def sum (a : Vec α) : α := a.foldl (· + ·) 0

def dot (a b : Vec α) : α := sum (mul a b)

def norm (a : Vec α) : α := Scalar.sqrt (dot a a)

structure Lanes (α : Type) where
  l0 : α
  l1 : α
  l2 : α
  l3 : α
  l4 : α
  l5 : α
  l6 : α
  l7 : α

/-- The lanes are joined in pairs four apart, in order. -/
def Lanes.total (s : Lanes α) : α :=
  0 + (s.l0 + s.l4) + (s.l1 + s.l5) + (s.l2 + s.l6) + (s.l3 + s.l7)

def laneSumFrom (s : Lanes α) : Vec α → α
  | a :: b :: c :: d :: e :: f :: g :: h :: rest =>
      laneSumFrom
        ⟨s.l0 + a, s.l1 + b, s.l2 + c, s.l3 + d, s.l4 + e, s.l5 + f, s.l6 + g, s.l7 + h⟩ rest
  | rest => rest.foldl (· + ·) s.total

def laneSum (a : Vec α) : α := laneSumFrom ⟨0, 0, 0, 0, 0, 0, 0, 0⟩ a

def laneDot (a b : Vec α) : α := laneSum (mul a b)

def normSq (a : Vec α) : α := laneDot a a

/-- The position of the first largest coordinate.  An undefined coordinate is
passed over unless it is the first. -/
def argmax : Vec α → Nat
  | [] => 0
  | a :: rest => go a 0 1 rest
where
  go (largest : α) (position next : Nat) : Vec α → Nat
    | [] => position
    | a :: rest =>
        if largest < a then go a next (next + 1) rest else go largest position (next + 1) rest

end Vec

end Minima
