import Mba.Power

/-!
# Double-precision numbers

A double is its 64-bit pattern: a sign bit, eleven bits of exponent and 52 of fraction. Two doubles
are equal exactly when their patterns are, so `-0.0` differs from `0.0`, and the numbers that are
not a number (NaN) are told apart by sign and payload.

A finite double is a whole number of units of `2 ^ -1074`, the smallest positive double, which
`units` gives. All arithmetic is done exactly on units and rounded once, by `nearest`, to the
nearest double, a tie going to the even pattern.

Results:
* `magnitude_ofMagnitude`: a double has the magnitude it is made from.
* `nearest_of_lt`: a number of units below `2 ^ 53` is a double as it stands.
-/

namespace Mba

/-- A double-precision number, as its bit pattern. -/
structure Double where
  bits : UInt64
  deriving DecidableEq, Repr

namespace Double

/-- Whether the sign bit is set. -/
def isNegative (x : Double) : Bool :=
  2 ^ 63 ≤ x.bits.toNat

/-- The pattern without its sign bit; it grows with the absolute value. -/
def magnitude (x : Double) : Nat :=
  x.bits.toNat % 2 ^ 63

/-- The magnitude of infinity. Smaller ones are finite, larger ones not a number. -/
def infinityMagnitude : Nat := 2047 * 2 ^ 52

def isNaN (x : Double) : Bool :=
  infinityMagnitude < x.magnitude

def isInfinite (x : Double) : Bool :=
  x.magnitude = infinityMagnitude

/-- The double of the given sign and magnitude. -/
def ofMagnitude (negative : Bool) (magnitude : Nat) : Double :=
  ⟨UInt64.ofNat (if negative then 2 ^ 63 + magnitude else magnitude)⟩

/-- The absolute value of a finite double, in units of `2 ^ -1074`. -/
def units (x : Double) : Nat :=
  let exponent := x.magnitude / 2 ^ 52
  let fraction := x.magnitude % 2 ^ 52
  if exponent = 0 then fraction else (2 ^ 52 + fraction) * 2 ^ (exponent - 1)

/-- The value of a finite double, in units of `2 ^ -1074`. -/
def signedUnits (x : Double) : Int :=
  if x.isNegative then -(x.units : Int) else x.units

/-- The number of units in one. -/
def unitsPerOne : Nat := 2 ^ 1074

/--
The magnitude of the double nearest to `num / den` units. The quotient is cut to 53 binary digits;
what is cut off decides the rounding, and half goes to the even neighbour. Each digit cut off raises
the exponent field by one, and a carry out of the fraction does so by itself. Numbers beyond the
largest double become infinite.
-/
def nearest (num den : Nat) : Nat :=
  let cut := (num / den).log2 + 1 - 53
  let step := den * 2 ^ cut
  let floor := num / step
  let rest := num % step
  let roundUp := step < 2 * rest || (2 * rest == step && floor % 2 == 1)
  min (cut * 2 ^ 52 + floor + (if roundUp then 1 else 0)) infinityMagnitude

/-! ## Magnitudes -/

theorem magnitude_ofMagnitude {m : Nat} (h : m < 2 ^ 63) (negative : Bool) :
    (ofMagnitude negative m).magnitude = m := by
  cases negative <;> simp only [ofMagnitude, magnitude, UInt64.toNat_ofNat'] <;> simp <;> omega

/-- **A number of units below `2 ^ 53` is a double as it stands.** -/
theorem nearest_of_lt {n : Nat} (h : n < 2 ^ 53) : nearest n 1 = n := by
  have hcut : n.log2 + 1 - 53 = 0 := by
    rcases Nat.eq_zero_or_pos n with rfl | hn
    · decide
    · have := (Nat.log2_lt (by omega)).2 h
      omega
  simp only [nearest, Nat.div_one, hcut, Nat.pow_zero, Nat.mul_one, Nat.mod_one, Nat.zero_mul,
    Nat.zero_add, infinityMagnitude]
  simp
  omega

end Double

end Mba
