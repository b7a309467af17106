import Mba.Builder

/-!
# Listings

A listing is the text of a program taken apart: the header with its parameters, and one line for
each operation, in which values are still named. The place of a line is its offset in bytes, which
the errors of reading point at.
-/

namespace Mba.Listing

/-- The constant on a line. -/
inductive Literal
  | int (value : Int)
  | double (x : Double)
  deriving DecidableEq, Repr

/-- One operation: `[%result =] mnemonic [literal] [%operand, …] [: type]`. -/
structure Line where
  /-- Where the line starts, in bytes. -/
  offset : Nat
  result? : Option String
  mnemonic : String
  literal? : Option Literal
  operands : List String
  ty? : Option String
  deriving DecidableEq, Repr

/-- `program @name(%param: type, …)`. -/
structure Header where
  name : String
  params : List (String × String)
  deriving DecidableEq, Repr

end Listing

/-- The text of a program taken apart. -/
structure Listing where
  header : Listing.Header
  lines : List Listing.Line
  deriving DecidableEq, Repr

namespace Listing

/-- Why a text is no program. -/
inductive Defect
  | header
  | operation
  | afterOperation
  | missingBrace
  | trailingInput
  | unknownType (name : String)
  | duplicateParameter (name : String)
  | undefinedValue (name : String)
  | operandCount (mnemonic : String) (expected found : Nat)
  | untypedConstant
  | literalRange (value : Int) (ty : Ty)
  | build (error : BuildError)
  | unknownOpcode (name : String)
  | wrongType (mnemonic : String) (actual annotated : Ty)
  | redefinedValue (name : String)
  | unnamedResult (mnemonic : String)
  | noResult (mnemonic name : String)
  deriving DecidableEq, Repr

/-- What the text says where a token was expected and not found. -/
def unexpectedToken : String :=
  "Parsing Error: ContextError \x7b context: [], cause: None \x7d"

def Defect.message : Defect → String
  | .header => s!"invalid program header: {unexpectedToken}"
  | .operation => s!"invalid operation: {unexpectedToken}"
  | .afterOperation => "unexpected input after operation"
  | .missingBrace => "missing closing `\x7d`"
  | .trailingInput => "trailing input after program"
  | .unknownType name => s!"unknown type `{name}`"
  | .duplicateParameter name => s!"duplicate parameter %{name}"
  | .undefinedValue name => s!"undefined value %{name}"
  | .operandCount mnemonic expected found =>
    s!"`{mnemonic}` expects {expected} operand(s), found {found}"
  | .untypedConstant => "`const` requires a result type"
  | .literalRange value ty => s!"literal {value} does not fit in {ty.name}"
  | .build error => error.message
  | .unknownOpcode name => s!"unknown opcode `{name}`"
  | .wrongType mnemonic actual annotated =>
    s!"`{mnemonic}` produces {actual.name}, annotated as {annotated.name}"
  | .redefinedValue name => s!"value %{name} redefined"
  | .unnamedResult mnemonic => s!"`{mnemonic}` result must be named"
  | .noResult mnemonic name => s!"`{mnemonic}` has no result to bind to %{name}"

/-- A defect and the offset, in bytes, that it is reported at. -/
structure ReadError where
  defect : Defect
  offset : Nat
  deriving DecidableEq, Repr

def ReadError.message (e : ReadError) : String :=
  s!"parse error at offset {e.offset}: {e.defect.message}"

end Listing

end Mba
