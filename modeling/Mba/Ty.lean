import Mba.Width

/-!
# Types of values

Results:
* `Ty.ofName?_name`: a type is found again under its own name.
-/

namespace Mba

/-- The type of a value: an integer of some width, a double or a truth value. -/
inductive Ty
  | int (width : Width)
  | double
  | bool
  deriving DecidableEq, Repr

namespace Ty

/-- Every type, the integers first and narrowest first. -/
def all : List Ty := [.int .w8, .int .w16, .int .w32, .int .w64, .double, .bool]

/-- The name of the type in a program text. -/
def name : Ty → String
  | .int .w8 => "i8"
  | .int .w16 => "i16"
  | .int .w32 => "i32"
  | .int .w64 => "i64"
  | .double => "f64"
  | .bool => "bool"

/-- The type with the given name. -/
def ofName? (name : String) : Option Ty :=
  all.find? fun ty => ty.name == name

/-- The width of an integer type. -/
def width? : Ty → Option Width
  | .int w => some w
  | .double | .bool => none

def isInt : Ty → Bool
  | .int _ => true
  | .double | .bool => false

/-- Integers and doubles have arithmetic; truth values have none. -/
def isNumeric : Ty → Bool
  | .int _ | .double => true
  | .bool => false

theorem ofName?_name (ty : Ty) : ofName? ty.name = some ty := by
  rcases ty with w | _ | _
  · cases w <;> decide
  · decide
  · decide

end Ty

end Mba
