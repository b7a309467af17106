import Mba.Double.Basic

/-!
# Arithmetic and order of doubles

The four operations round their exact result once; `rem` is exact. An operand that is not a number
is the result, made quiet, and the left one goes first; an operation without a result, such as a
quotient of zeros, gives the negative quiet pattern `invalid`.
-/

namespace Mba.Double

/-- The double with its sign bit flipped. -/
def neg (x : Double) : Double :=
  ⟨x.bits ^^^ 0x8000000000000000⟩

/-- The result of an operation that has none. -/
def invalid : Double := ⟨0xfff8000000000000⟩

/-- The pattern with the highest bit of the fraction set. -/
def quiet (x : Double) : Double :=
  ⟨x.bits ||| 0x0008000000000000⟩

/-- The result that an operand forces by not being a number, else the given one. -/
def unlessNaN (x y result : Double) : Double :=
  if x.isNaN then x.quiet else if y.isNaN then y.quiet else result

def zero (negative : Bool) : Double := ofMagnitude negative 0

def infinity (negative : Bool) : Double := ofMagnitude negative infinityMagnitude

/-- Whether the double is `0.0` or `-0.0`. -/
def isZero (x : Double) : Bool :=
  x.magnitude = 0

/-- The sum. An exact zero is positive unless both operands are negative. -/
def add (x y : Double) : Double :=
  unlessNaN x y <|
    if x.isInfinite then
      if y.isInfinite && x.isNegative != y.isNegative then invalid else x
    else if y.isInfinite then y
    else
      let sum := x.signedUnits + y.signedUnits
      if sum = 0 then zero (x.isNegative && y.isNegative)
      else ofMagnitude (sum < 0) (nearest sum.natAbs 1)

def sub (x y : Double) : Double :=
  unlessNaN x y (add x y.neg)

def mul (x y : Double) : Double :=
  let negative := x.isNegative != y.isNegative
  unlessNaN x y <|
    if x.isInfinite || y.isInfinite then
      if x.isZero || y.isZero then invalid else infinity negative
    else ofMagnitude negative (nearest (x.units * y.units) unitsPerOne)

def div (x y : Double) : Double :=
  let negative := x.isNegative != y.isNegative
  unlessNaN x y <|
    if x.isInfinite then
      if y.isInfinite then invalid else infinity negative
    else if y.isInfinite then zero negative
    else if y.isZero then
      if x.isZero then invalid else infinity negative
    else ofMagnitude negative (nearest (x.units * unitsPerOne) y.units)

/-- The remainder of the division that truncates toward zero; it has the sign of the dividend. -/
def rem (x y : Double) : Double :=
  unlessNaN x y <|
    if x.isInfinite || y.isZero then invalid
    else if y.isInfinite then x
    else ofMagnitude x.isNegative (nearest (x.units % y.units) 1)

/-- A number that orders the doubles that are numbers; both zeros are at `0`. -/
def rank (x : Double) : Int :=
  if x.isNegative then -(x.magnitude : Int) else x.magnitude

/-- The order of two doubles; there is none where one is not a number. -/
def compare? (x y : Double) : Option Ordering :=
  if x.isNaN || y.isNaN then none else some (compare x.rank y.rank)

end Mba.Double
