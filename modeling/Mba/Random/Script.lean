import Mba.Random.Source

/-!
# The scripted source

The words of a scripted source are those of a list that is read over and over.
-/

namespace Mba

/-- A source that hands out the words of a list in turn, starting over at the end. -/
structure Script where
  words : List UInt32
  /-- The words not yet handed out in this turn. -/
  pending : List UInt32
  deriving DecidableEq, Repr

namespace Script

def ofWords (words : List UInt32) : Script := ⟨words, words⟩

/-- The next word; without words it is zero. -/
def next (s : Script) : UInt32 × Script :=
  match s.pending, s.words with
  | word :: pending, _ => (word, { s with pending })
  | [], word :: pending => (word, { s with pending })
  | [], [] => (0, s)

instance : RandomSource Script where
  next32 := next
  next64 := RandomSource.pair next

end Script

end Mba
