import Mba.Random.Source

/-!
# The seeded source

The words of a seeded source are the keystream of the ChaCha cipher with twelve rounds: a key of
eight words, a 64-bit block counter from zero and two words of zero. The key is expanded from a
64-bit seed by a congruential generator.
-/

namespace Mba

namespace ChaCha

/-- One of the four rows of a state. -/
structure Row where
  w0 : UInt32
  w1 : UInt32
  w2 : UInt32
  w3 : UInt32
  deriving DecidableEq, Repr

namespace Row

def zipWith (f : UInt32 → UInt32 → UInt32) (r s : Row) : Row :=
  ⟨f r.w0 s.w0, f r.w1 s.w1, f r.w2 s.w2, f r.w3 s.w3⟩

/-- The words each rotated left by `n` bits. -/
def rotateBits (n : UInt32) (r : Row) : Row :=
  let rotate (w : UInt32) : UInt32 := (w <<< n) ||| (w >>> (32 - n))
  ⟨rotate r.w0, rotate r.w1, rotate r.w2, rotate r.w3⟩

/-- The row rotated left by one word. -/
def rotate (r : Row) : Row := ⟨r.w1, r.w2, r.w3, r.w0⟩

def toList (r : Row) : List UInt32 := [r.w0, r.w1, r.w2, r.w3]

end Row

/-- The sixteen words of a block. -/
structure Block where
  a : Row
  b : Row
  c : Row
  d : Row
  deriving DecidableEq, Repr

namespace Block

def zipWith (f : UInt32 → UInt32 → UInt32) (x y : Block) : Block :=
  ⟨.zipWith f x.a y.a, .zipWith f x.b y.b, .zipWith f x.c y.c, .zipWith f x.d y.d⟩

def toList (x : Block) : List UInt32 :=
  x.a.toList ++ x.b.toList ++ x.c.toList ++ x.d.toList

/-- A quarter round on each column. -/
def mixColumns (x : Block) : Block :=
  let add := Row.zipWith (· + ·)
  let xor := Row.zipWith (· ^^^ ·)
  let a := add x.a x.b
  let d := (xor x.d a).rotateBits 16
  let c := add x.c d
  let b := (xor x.b c).rotateBits 12
  let a := add a b
  let d := (xor d a).rotateBits 8
  let c := add c d
  let b := (xor b c).rotateBits 7
  ⟨a, b, c, d⟩

/-- A round on the columns and one on the diagonals. -/
def doubleRound (x : Block) : Block :=
  let x := x.mixColumns
  let x := mixColumns ⟨x.a, x.b.rotate, x.c.rotate.rotate, x.d.rotate.rotate.rotate⟩
  ⟨x.a, x.b.rotate.rotate.rotate, x.c.rotate.rotate, x.d.rotate⟩

end Block

/-- The words that every block starts with. -/
def constants : Row := ⟨0x61707865, 0x3320646e, 0x79622d32, 0x6b206574⟩

/-- The block of the given number, as it stands before the rounds. -/
def inputBlock (keyLow keyHigh : Row) (counter : UInt64) : Block :=
  ⟨constants, keyLow, keyHigh, ⟨counter.toUInt32, (counter >>> 32).toUInt32, 0, 0⟩⟩

/-- The sixteen words of the keystream at the given block. -/
def keystream (keyLow keyHigh : Row) (counter : UInt64) : List UInt32 :=
  let input := inputBlock keyLow keyHigh counter
  let mixed := Nat.repeat Block.doubleRound 6 input
  (Block.zipWith (· + ·) mixed input).toList

end ChaCha

/-- A seeded source: the key, the number of the next block and the words left of the last one. -/
structure ChaCha where
  keyLow : ChaCha.Row
  keyHigh : ChaCha.Row
  counter : UInt64
  pending : List UInt32
  deriving DecidableEq, Repr

namespace ChaCha

/-- One step of the generator that expands seeds: a word of the key and the next state. -/
def expand (state : UInt64) : UInt32 × UInt64 :=
  let state := state * 6364136223846793005 + 11634580027462260723
  let mixed := (((state >>> 18) ^^^ state) >>> 27).toUInt32
  let turn := (state >>> 59).toUInt32
  ((mixed >>> turn) ||| (mixed <<< ((32 - turn) % 32)), state)

/-- Four words of the key and the next state. -/
def expandRow (state : UInt64) : Row × UInt64 :=
  let (w0, state) := expand state
  let (w1, state) := expand state
  let (w2, state) := expand state
  let (w3, state) := expand state
  (⟨w0, w1, w2, w3⟩, state)

/-- The source of the given seed. -/
def ofSeed (seed : UInt64) : ChaCha :=
  let (keyLow, state) := expandRow seed
  let (keyHigh, _) := expandRow state
  ⟨keyLow, keyHigh, 0, []⟩

/-- The next word of the keystream. -/
def next (g : ChaCha) : UInt32 × ChaCha :=
  match g.pending with
  | word :: pending => (word, { g with pending })
  | [] =>
    match keystream g.keyLow g.keyHigh g.counter with
    | word :: pending => (word, { g with counter := g.counter + 1, pending })
    | [] => (0, g)

instance : RandomSource ChaCha where
  next32 := next
  next64 := RandomSource.pair next

end ChaCha

end Mba
