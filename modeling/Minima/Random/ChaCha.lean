/-!
# The ChaCha stream

A block of sixteen words is made from a key and a block number by rounds of
quarter mixing.  The state is a square of four rows; a round mixes its columns,
and the diagonals are brought into columns by turning the rows.  The stream is
the words of the blocks in order, with six double rounds for each.
-/

namespace Minima

structure Four (β : Type) where
  a : β
  b : β
  c : β
  d : β

namespace Four

def zipWith {β γ δ : Type} (f : β → γ → δ) (x : Four β) (y : Four γ) : Four δ :=
  ⟨f x.a y.a, f x.b y.b, f x.c y.c, f x.d y.d⟩

def map {β γ : Type} (f : β → γ) (x : Four β) : Four γ := ⟨f x.a, f x.b, f x.c, f x.d⟩

def turn {β : Type} (x : Four β) : Four β := ⟨x.b, x.c, x.d, x.a⟩

def toList {β : Type} (x : Four β) : List β := [x.a, x.b, x.c, x.d]

end Four

namespace ChaCha

abbrev Row := Four UInt32

abbrev Square := Four Row

def Square.add (x y : Square) : Square := Four.zipWith (Four.zipWith (· + ·)) x y

def rotateLeft (n : UInt32) (x : UInt32) : UInt32 := (x <<< n) ||| (x >>> (32 - n))

def mix (n : UInt32) (x y z : Row) : Row × Row :=
  let x := Four.zipWith (· + ·) x y
  (x, (Four.zipWith (· ^^^ ·) z x).map (rotateLeft n))

def columns (s : Square) : Square :=
  let (a, d) := mix 16 s.a s.b s.d
  let (c, b) := mix 12 s.c d s.b
  let (a, d) := mix 8 a b d
  let (c, b) := mix 7 c d b
  ⟨a, b, c, d⟩

def straighten (s : Square) : Square := ⟨s.a, s.b.turn, s.c.turn.turn, s.d.turn.turn.turn⟩

def slant (s : Square) : Square := ⟨s.a, s.b.turn.turn.turn, s.c.turn.turn, s.d.turn⟩

def doubleRound (s : Square) : Square := slant (columns (straighten (columns s)))

def doubleRounds : Nat := 6

def constants : Row := ⟨0x61707865, 0x3320646e, 0x79622d32, 0x6b206574⟩

def block (low high : Row) (number : UInt64) : List UInt32 :=
  let start : Square :=
    ⟨constants, low, high, ⟨number.toUInt32, (number >>> 32).toUInt32, 0, 0⟩⟩
  let mixed := Nat.repeat doubleRound doubleRounds start
  (Square.add mixed start).toList.flatMap Four.toList

end ChaCha

/-- A stream: the key, the number of the next block, and the words of the last
block that are left. -/
structure ChaCha where
  low : ChaCha.Row
  high : ChaCha.Row
  number : UInt64
  left : List UInt32

namespace ChaCha

def keyWord (s : UInt64) : UInt32 × UInt64 :=
  let s := s * 6364136223846793005 + 11634580027462260723
  let x := (((s >>> 18) ^^^ s) >>> 27).toUInt32
  let turn := (s >>> 59).toUInt32
  ((x >>> turn) ||| (x <<< ((32 - turn) % 32)), s)

def keyRow (s : UInt64) : Row × UInt64 :=
  let (a, s) := keyWord s
  let (b, s) := keyWord s
  let (c, s) := keyWord s
  let (d, s) := keyWord s
  (⟨a, b, c, d⟩, s)

def ofSeed (seed : UInt64) : ChaCha :=
  let (low, s) := keyRow seed
  let (high, _) := keyRow s
  ⟨low, high, 0, []⟩

def next32 (c : ChaCha) : UInt32 × ChaCha :=
  match c.left with
  | w :: left => (w, { c with left })
  | [] =>
      match block c.low c.high c.number with
      | w :: left => (w, { c with number := c.number + 1, left })
      | [] => (0, c)

def next64 (c : ChaCha) : UInt64 × ChaCha :=
  let (low, c) := c.next32
  let (high, c) := c.next32
  (high.toUInt64 <<< 32 ||| low.toUInt64, c)

end ChaCha

end Minima
