import Mba.Double.Decimal
import Mba.Ty

/-!
# Scalars

The values that a program computes on. Equality is that of the representation: a word may have bits
above its width, and doubles are compared by their patterns, so a result that is not a number equals
itself.
-/

namespace Mba

/-- A value: a word of some width, a double or a truth value. -/
inductive Scalar
  | int (width : Width) (bits : UInt64)
  | double (x : Double)
  | bool (b : Bool)
  deriving DecidableEq, Repr

namespace Scalar

def ty : Scalar → Ty
  | .int w _ => .int w
  | .double _ => .double
  | .bool _ => .bool

/-- The signed reading of an integer. -/
def signed? : Scalar → Option Int
  | .int w bits => some (w.signed bits)
  | .double _ | .bool _ => none

/-- The integer of the given type that `value` wraps to. -/
def ofInt? (ty : Ty) (value : Int) : Option Scalar :=
  ty.width?.map fun w => .int w (w.ofInt value)

/-- The value as text. -/
def text : Scalar → String
  | .int w bits => toString (w.signed bits)
  | .double x => x.text
  | .bool b => toString b

/-! ## Reading -/

/-- The integer of width `w` with the given signed reading, if there is one. -/
def ofSigned? (w : Width) (value : Int) : Option Scalar :=
  let bits := w.ofInt value
  if w.signed bits = value then some (.int w bits) else none

/--
Reads an integer of width `w`. A decimal numeral or a negated one is a signed value and must be in
the signed range; hexadecimal digits without a sign are a bit pattern and must fit the width.
-/
def readInt? (w : Width) (text : List Char) : Option Scalar :=
  let (negative, magnitude) : Bool × List Char := match text with
    | '-' :: rest => (true, rest)
    | rest => (false, rest)
  match magnitude with
  | '0' :: 'x' :: digits =>
    (Numeral.hexadecimal? digits).bind fun n =>
      if negative then ofSigned? w (-(n : Int))
      else if n ≤ w.mask.toNat then some (.int w (UInt64.ofNat n))
      else none
  | digits =>
    (Numeral.decimal? digits).bind fun n =>
      ofSigned? w (if negative then -(n : Int) else n)

/-- Reads a value of the given type. -/
def read? (ty : Ty) (text : String) : Option Scalar :=
  match ty with
  | .int w => readInt? w text.toList
  | .double => (Double.read? text.toList).map .double
  | .bool =>
    if text = "true" then some (.bool true)
    else if text = "false" then some (.bool false)
    else none

end Scalar

end Mba
