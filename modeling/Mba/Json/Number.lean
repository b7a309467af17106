import Mba.Double.Arithmetic
import Mba.Double.Decimal

/-!
# Doubles in JSON

A double is read from as many of its digits as fit into 64 bits, and brought to its size by powers
of ten. The digits, the powers and every product or quotient are rounded, so a text with many digits
may be read to a neighbour of the nearest double; up to fifteen digits and small exponents it is the
nearest one. A number beyond the largest double is refused. A double is written with the fewest
digits whose nearest double it is.
-/

namespace Mba.Json

/-- Appends digits to a number for as long as it has at most 64 bits, and counts those appended. -/
def appendDigits (n : Nat) : List Char → Nat × Nat
  | [] => (n, 0)
  | c :: rest =>
    let more := 10 * n + (c.toNat - '0'.toNat)
    if more < 2 ^ 64 then
      let (result, count) := appendDigits more rest
      (result, count + 1)
    else (n, 0)

/-- The largest power of ten that is a double, by its exponent. -/
def largestPower : Nat := 308

/-- The double nearest to a power of ten. -/
def powerOfTen (exponent : Nat) : Double :=
  .ofMagnitude false (Double.magnitudeOfDecimal ⟨1, exponent⟩)

/-- Multiplies a double by a power of ten; there is no result beyond the largest double. -/
def scaleUp (x : Double) (exponent : Nat) : Option Double :=
  if exponent ≤ largestPower then
    let product := x.mul (powerOfTen exponent)
    if product.isInfinite then none else some product
  else if x.isZero then some x
  else none

/-- Divides a double by a power of ten, in steps of the largest one. -/
def scaleDown (x : Double) (exponent : Nat) : Double :=
  if exponent ≤ largestPower then x.div (powerOfTen exponent)
  else if x.isZero then x
  else scaleDown (x.div (powerOfTen largestPower)) (exponent - largestPower)
termination_by exponent
decreasing_by simp [largestPower] at *; omega

/-- Reads a number without its sign. -/
def readMagnitude? (text : List Char) : Option Double := do
  let parts ← Double.DecimalText.read? text
  let (start, wholeCount) := appendDigits 0 parts.whole
  let (digits, fractionCount) := appendDigits start parts.fraction
  let exponent := parts.exponent + (parts.whole.length - wholeCount : Nat) - fractionCount
  let x : Double := .ofMagnitude false (Double.nearest (digits * Double.unitsPerOne) 1)
  if 0 ≤ exponent then scaleUp x exponent.toNat else return scaleDown x (-exponent).toNat

/-- Reads a double from the text of a number. -/
def readDouble? (text : String) : Option Double :=
  match text.toList with
  | '-' :: rest => (readMagnitude? rest).map Double.neg
  | rest => readMagnitude? rest

/-- Doubles are positional from `1e-5` up to below `1e16`, a positive exponent has a `+`, and a tie
goes to the decimal with an even last digit. -/
def decimalFormat : Double.DecimalFormat := ⟨-4, 16, true, true⟩

end Mba.Json
