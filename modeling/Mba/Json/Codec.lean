import Mba.Json.Number
import Mba.Json.Reader
import Mba.Mutation.Round
import Mba.Scalar

/-!
# The serial form of reports

How widths, types, operators, scalars, configurations and reports are written as JSON and read back.
An enumeration is written by the name of its case, a case with contents as an object with that name
as its only key, and a structure as an object of its fields in order. In reading, fields may come in
any order and unknown ones are passed over; a structure may also be given as the array of its
fields.
-/

namespace Mba

/-- Types with a serial form. -/
class JsonCodec (α : Type) where
  encode : α → Json
  decode? : Json → Option α

namespace Json

/-! ## Parts -/

/-- A number of at most 64 bits without a sign. -/
def natural? : Json → Option Nat
  | .number literal => Numeral.decimal? literal.toList
  | _ => none

/-- A finite double. -/
def double? : Json → Option Double
  | .number literal => readDouble? literal
  | _ => none

def text? : Json → Option String
  | .string text? => text?
  | _ => none

def bool? : Json → Option Bool
  | .bool b => some b
  | _ => none

/-- The name of a case without contents: a string, or an object whose only field is empty. -/
def caseName? : Json → Option String
  | .string text? => text?
  | .object [(name?, .null)] => name?
  | _ => none

/-- A case with contents, and its name. -/
def case? : Json → Option (String × Json)
  | .object [(some name, contents)] => some (name, contents)
  | _ => none

/-- A case with contents. -/
def case (name : String) (contents : Json) : Json := .ofFields [(name, contents)]

/-- The case that has the given name, of a list of cases. -/
def caseOf? {α : Type} (nameOf : α → String) (cases : List α) (json : Json) : Option α :=
  json.caseName?.bind fun name => cases.find? fun a => nameOf a == name

/-- The values of the named fields of a structure; a field must not come twice. -/
def fieldsOf? (names : List String) : Json → Option (List (Option Json))
  | .object fields =>
    let isKey (name : String) (field : Option String × Json) : Bool := field.1 == some name
    if fields.any fun field => field.1.isNone then none
    else if names.all fun name => fields.countP (isKey name) ≤ 1 then
      some (names.map fun name => (fields.find? (isKey name)).map Prod.snd)
    else none
  | .array items =>
    if items.length ≤ names.length then
      some ((List.range names.length).map fun i => items[i]?)
    else none
  | _ => none

end Json

/-! ## Enumerations -/

namespace Width

/-- The name in the serial form. -/
def caseName : Width → String
  | .w8 => "W8"
  | .w16 => "W16"
  | .w32 => "W32"
  | .w64 => "W64"

instance : JsonCodec Width where
  encode w := .text w.caseName
  decode? := Json.caseOf? caseName all

end Width

namespace Ty

/-- The name in the serial form. -/
def caseName : Ty → String
  | .int .w8 => "I8"
  | .int .w16 => "I16"
  | .int .w32 => "I32"
  | .int .w64 => "I64"
  | .double => "F64"
  | .bool => "Bool"

instance : JsonCodec Ty where
  encode ty := .text ty.caseName
  decode? := Json.caseOf? caseName all

end Ty

namespace BinaryOp

/-- The name in the serial form. -/
def caseName : BinaryOp → String
  | .add => "Add"
  | .sub => "Sub"
  | .mul => "Mul"
  | .div => "Div"
  | .rem => "Rem"
  | .and => "BitAnd"
  | .or => "BitOr"
  | .xor => "Xor"
  | .shl => "Shl"
  | .shr => "Shr"

instance : JsonCodec BinaryOp where
  encode op := .text op.caseName
  decode? := Json.caseOf? caseName all

end BinaryOp

namespace UnaryOp

/-- The name in the serial form. -/
def caseName : UnaryOp → String
  | .not => "BitwiseNot"
  | .neg => "Neg"

instance : JsonCodec UnaryOp where
  encode op := .text op.caseName
  decode? := Json.caseOf? caseName all

end UnaryOp

namespace Comparison

/-- The name in the serial form. -/
def caseName : Comparison → String
  | .eq => "Eq"
  | .ne => "Ne"
  | .lt => "Lt"
  | .le => "Le"
  | .gt => "Gt"
  | .ge => "Ge"

instance : JsonCodec Comparison where
  encode test := .text test.caseName
  decode? := Json.caseOf? caseName all

end Comparison

/-! ## Values and reports -/

open JsonCodec in
instance : JsonCodec Scalar where
  encode
    | .int w bits => .case "Int" (.array [encode w, .natural bits.toNat])
    | .double x =>
      .case "Float"
        (if x.isNaN || x.isInfinite then .null else .number (x.textIn Json.decimalFormat))
    | .bool b => .case "Bool" (.bool b)
  decode? json := do
    let (name, contents) ← json.case?
    match name, contents with
    | "Int", .array [w, bits] => return .int (← decode? w) (UInt64.ofNat (← bits.natural?))
    | "Float", contents => return .double (← contents.double?)
    | "Bool", contents => return .bool (← contents.bool?)
    | _, _ => none

open JsonCodec in
instance : JsonCodec Ineligibility where
  encode
    | .notBinary opcode => .case "NotBinary" (.text opcode)
    | .unsupportedOperator op => .case "UnsupportedOperator" (encode op)
    | .operandTypes lhs rhs =>
      .case "OperandTypes" (.ofFields [("lhs", encode lhs), ("rhs", encode rhs)])
    | .resultType found => .case "ResultType" (.text found)
  decode? json := do
    let (name, contents) ← json.case?
    match name with
    | "NotBinary" => return .notBinary (← contents.text?)
    | "UnsupportedOperator" => return .unsupportedOperator (← decode? contents)
    | "OperandTypes" =>
      match ← contents.fieldsOf? ["lhs", "rhs"] with
      | [some lhs, some rhs] => return .operandTypes (← decode? lhs) (← decode? rhs)
      | _ => none
    | "ResultType" => return .resultType (← contents.text?)
    | _ => none

instance : JsonCodec MutationConfig where
  encode config := .ofFields [
    ("max_simultaneous_mutations", .natural config.maxPicks),
    ("validate_after_mutation", .bool config.validate)]
  decode? json := do
    let standard : MutationConfig := {}
    match ← json.fieldsOf? ["max_simultaneous_mutations", "validate_after_mutation"] with
    | [maxPicks?, validate?] =>
      let maxPicks ← match maxPicks? with
        | some field => field.natural?
        | none => some standard.maxPicks
      let validate ← match validate? with
        | some field => field.bool?
        | none => some standard.validate
      return ⟨maxPicks, validate⟩
    | _ => none

open JsonCodec in
instance : JsonCodec MutationRecord where
  encode r := .ofFields [
    ("original", .text r.instruction),
    ("operator", encode r.operator),
    ("template_index", .natural r.templateIndex),
    ("formula", .text r.formula),
    ("emitted", .natural r.emitted),
    ("rebound_uses", .natural r.reboundUses)]
  decode? json := do
    match ← json.fieldsOf?
      ["original", "operator", "template_index", "formula", "emitted", "rebound_uses"] with
    | [some instruction, some operator, some index, some formula, some emitted, some rebound] =>
      return {
        instruction := ← instruction.text?
        operator := ← decode? operator
        templateIndex := ← index.natural?
        formula := ← formula.text?
        emitted := ← emitted.natural?
        reboundUses := ← rebound.natural? }
    | _ => none

/-- The serial form of a list. -/
def JsonCodec.encodeList {α : Type} [JsonCodec α] (items : List α) : Json :=
  .array (items.map JsonCodec.encode)

/-- Reads a list from an array. -/
def JsonCodec.decodeList? {α : Type} [JsonCodec α] : Json → Option (List α)
  | .array items => items.mapM JsonCodec.decode?
  | _ => none

open JsonCodec in
instance : JsonCodec MutationReport where
  encode r := .ofFields [
    ("mutator", .text r.mutator),
    ("candidates", .natural r.candidates),
    ("records", encodeList r.records)]
  decode? json := do
    match ← json.fieldsOf? ["mutator", "candidates", "records"] with
    | [some mutator, some candidates, some records] =>
      return {
        mutator := ← mutator.text?
        candidates := ← candidates.natural?
        records := ← decodeList? records }
    | _ => none

/-- Reads the serial form of a value from a text and writes it again. -/
def JsonCodec.normalize? (α : Type) [JsonCodec α] (text : String) : Option String := do
  let json ← Json.ofText? text
  let a : α ← decode? json
  return (encode a).compact

end Mba
