/-!
# JSON values and their texts

A JSON value keeps the texts of its numbers and the order of its fields. It is written compactly or
over several lines with an indentation of two blanks.
-/

namespace Mba

/-- A JSON value. -/
inductive Json
  | null
  | bool (b : Bool)
  /-- A number, as it is written. -/
  | number (literal : String)
  /-- A string; `none` stands for one with half of a surrogate pair in it, which is no text. -/
  | string (text? : Option String)
  | array (items : List Json)
  /-- Fields with their keys, which are strings of the same kind. -/
  | object (fields : List (Option String × Json))

namespace Json

/-- A string value. -/
def text (s : String) : Json := .string (some s)

/-- An object with the given fields. -/
def ofFields (fields : List (String × Json)) : Json :=
  .object (fields.map fun (key, value) => (some key, value))

/-- A natural number. -/
def natural (n : Nat) : Json := .number (toString n)

/-! ## Strings -/

/-- The last hexadecimal digit of a number. -/
def hexDigit (n : Nat) : Char := Nat.digitChar (n % 16)

/-- A character of a string, escaped where it has to be. -/
def escapeChar (c : Char) : List Char :=
  if c = '"' then ['\\', '"']
  else if c = '\\' then ['\\', '\\']
  else if c = '\x08' then ['\\', 'b']
  else if c = '\t' then ['\\', 't']
  else if c = '\n' then ['\\', 'n']
  else if c = '\x0c' then ['\\', 'f']
  else if c = '\r' then ['\\', 'r']
  else if c.toNat < 32 then ['\\', 'u', '0', '0', hexDigit (c.toNat / 16), hexDigit c.toNat]
  else [c]

/-- A string in quotes; one that is no text is written without its characters. -/
def quote (text? : Option String) : String :=
  "\"" ++ String.ofList ((text?.getD "").toList.flatMap escapeChar) ++ "\""

/-! ## Compact form -/

mutual

/-- The value without any blanks. -/
def compact : Json → String
  | .null => "null"
  | .bool b => toString b
  | .number literal => literal
  | .string text? => quote text?
  | .array items => "[" ++ ",".intercalate (compactItems items) ++ "]"
  | .object fields => "\x7b" ++ ",".intercalate (compactFields fields) ++ "\x7d"

def compactItems : List Json → List String
  | [] => []
  | item :: rest => item.compact :: compactItems rest

def compactFields : List (Option String × Json) → List String
  | [] => []
  | (key, value) :: rest => (quote key ++ ":" ++ value.compact) :: compactFields rest

end

/-! ## Indented form -/

/-- The start of a line at the given depth. -/
def lineStart (depth : Nat) : String :=
  "\n" ++ String.ofList (List.replicate (2 * depth) ' ')

/-- Items on lines of their own between brackets; without items the brackets stand together. -/
def bracket (left right : String) (depth : Nat) (items : List String) : String :=
  if items.isEmpty then left ++ right
  else
    let inner := lineStart (depth + 1)
    left ++ inner ++ ("," ++ inner).intercalate items ++ lineStart depth ++ right

mutual

/-- The value over several lines, at the given depth. -/
def indented (depth : Nat) : Json → String
  | .null => "null"
  | .bool b => toString b
  | .number literal => literal
  | .string text? => quote text?
  | .array items => bracket "[" "]" depth (indentedItems (depth + 1) items)
  | .object fields => bracket "\x7b" "\x7d" depth (indentedFields (depth + 1) fields)

def indentedItems (depth : Nat) : List Json → List String
  | [] => []
  | item :: rest => item.indented depth :: indentedItems depth rest

def indentedFields (depth : Nat) : List (Option String × Json) → List String
  | [] => []
  | (key, value) :: rest =>
    (quote key ++ ": " ++ value.indented depth) :: indentedFields depth rest

end

end Json

end Mba
