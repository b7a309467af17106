import Mba.Power

/-!
# Random sources

A random source hands out words of 32 and of 64 bits. Choices below a bound are made from words by
widening multiplication: the word is taken as a fraction of one and scaled to the bound, and a
second word decides the carry where the first one leaves it open. Nothing is assumed of the words,
so what is proved of a mutation holds whatever is drawn.

Results:
* `choose_lt`: a choice below a positive bound is below it.
-/

namespace Mba

/-- States of type `γ` from which words can be drawn. -/
class RandomSource (γ : Type) where
  next32 : γ → UInt32 × γ
  next64 : γ → UInt64 × γ

namespace RandomSource

/-- Two words put together, the low half first. -/
def join (low high : UInt32) : UInt64 :=
  low.toUInt64 ||| (high.toUInt64 <<< 32)

/-- Draws a 64-bit word as two 32-bit ones. -/
def pair {γ : Type} (next32 : γ → UInt32 × γ) (source : γ) : UInt64 × γ :=
  let (low, source) := next32 source
  let (high, source) := next32 source
  (join low high, source)

variable {γ : Type} [RandomSource γ]

/-- The number of values that a narrow or a wide word can have. -/
def wordCount (wide : Bool) : Nat :=
  if wide then 2 ^ 64 else 2 ^ 32

/-- Draws a narrow or a wide word. -/
def draw (wide : Bool) (source : γ) : Nat × γ :=
  if wide then
    let (word, source) := next64 source
    (word.toNat, source)
  else
    let (word, source) := next32 source
    (word.toNat, source)

theorem draw_lt (wide : Bool) (source : γ) : (draw wide source).1 < wordCount wide := by
  unfold draw wordCount
  split
  · exact (next64 source).1.toNat_lt
  · exact (next32 source).1.toNat_lt

/-- Chooses a number below `bound`, which is at most the count of the words drawn. -/
def choose (wide : Bool) (bound : Nat) (source : γ) : Nat × γ :=
  let count := wordCount wide
  let (first, source) := draw wide source
  let floor := first * bound / count
  let rest := first * bound % count
  if count - bound < rest then
    let (second, source) := draw wide source
    (if count ≤ rest + second * bound / count then floor + 1 else floor, source)
  else (floor, source)

/-- A choice needs wide words when its bound is above `2 ^ 32 - 1`. -/
def needsWide (bound : Nat) : Bool :=
  2 ^ 32 ≤ bound

/-- Chooses a number below `bound`. -/
def below (bound : Nat) (source : γ) : Nat × γ :=
  choose (needsWide bound) bound source

/-- Chooses a number from `1` up to `limit`. -/
def upTo (limit : Nat) (source : γ) : Nat × γ :=
  let (n, source) := choose (needsWide limit) limit source
  (n + 1, source)

/-- Draws a truth value: the highest bit of a word. -/
def bool (source : γ) : Bool × γ :=
  let (word, source) := next32 source
  (word >>> 31 == 1, source)

/-- **A choice below a positive bound is below it.** -/
theorem choose_lt {wide : Bool} {bound : Nat} (hpos : 0 < bound) (source : γ) :
    (choose wide bound source).1 < bound := by
  have hdraw := draw_lt wide source
  have hcount : 0 < wordCount wide := by unfold wordCount; split <;> omega
  have hfloor : (draw wide source).1 * bound / wordCount wide < bound := by
    rw [Nat.div_lt_iff_lt_mul hcount, Nat.mul_comm bound]
    exact Nat.mul_lt_mul_of_pos_right hdraw hpos
  unfold choose
  dsimp only
  split
  · next hrest =>
    dsimp only
    split
    · -- a carry out of the largest floor would need a larger first word
      have hsplit := Nat.div_add_mod ((draw wide source).1 * bound) (wordCount wide)
      have hmax : (draw wide source).1 * bound + bound ≤ wordCount wide * bound := by
        rw [← Nat.succ_mul]
        exact Nat.mul_le_mul_right _ hdraw
      have hlt : wordCount wide *
          ((draw wide source).1 * bound / wordCount wide) + (wordCount wide - bound) + bound <
          wordCount wide * bound := by omega
      have hlt' : wordCount wide * ((draw wide source).1 * bound / wordCount wide + 1) <
          wordCount wide * bound := by
        rw [Nat.mul_add, Nat.mul_one]
        omega
      exact Nat.lt_of_mul_lt_mul_left hlt'
    · exact hfloor
  · exact hfloor

theorem below_lt {bound : Nat} (hpos : 0 < bound) (source : γ) :
    (below bound source).1 < bound :=
  choose_lt hpos source

end RandomSource

end Mba
