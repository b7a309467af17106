import Mba.Json.Basic
import Mba.Numeral

/-!
# Reading JSON

A text is read as one JSON value with blanks around it. Numbers have no leading zeros, strings no
control characters, and nothing may follow the value.
-/

namespace Mba.Json

/-- A reader gives its answer and the rest of the text, or nothing. -/
abbrev Reader (α : Type) := StateT (List Char) Option α

namespace Reader

def skipBlanks : Reader Unit :=
  modify fun text => text.dropWhile fun c => c = ' ' || c = '\t' || c = '\n' || c = '\r'

/-- Takes the given characters. -/
def token (expected : String) : Reader Unit := fun text =>
  if expected.toList.isPrefixOf text then some ((), text.drop expected.length) else none

/-! ## Numbers -/

/-- Takes digits, one at least. -/
def digits : Reader (List Char) := fun text =>
  if (text.takeWhile Char.isDigit).isEmpty then none
  else some (text.takeWhile Char.isDigit, text.dropWhile Char.isDigit)

/-- Takes one of the characters, if it follows. -/
def oneOf (choices : List Char) : Reader (List Char) := fun text =>
  match text with
  | c :: rest => if choices.contains c then some ([c], rest) else some ([], text)
  | [] => some ([], [])

/-- The digits before the point: a zero alone, or digits that do not start with one. -/
def wholePart : Reader (List Char) := fun text =>
  match text with
  | '0' :: rest => some (['0'], rest)
  | _ => digits text

/-- A number, as it is written. -/
def number : Reader String := do
  let sign ← oneOf ['-']
  let whole ← wholePart
  let point ← oneOf ['.']
  let fraction ← if point.isEmpty then pure [] else digits
  let mark ← oneOf ['e', 'E']
  if mark.isEmpty then return String.ofList (sign ++ whole ++ point ++ fraction)
  else
    let expSign ← oneOf ['+', '-']
    let exponent ← digits
    return String.ofList (sign ++ whole ++ point ++ fraction ++ mark ++ expSign ++ exponent)

/-! ## Strings -/

/-- A character of a string as it is written: itself, or a 16-bit unit. -/
inductive Piece
  | char (c : Char)
  | unit (n : Nat)

/-- The character that stands for another one behind a backslash. -/
def unescape? : Char → Option Char
  | '"' => some '"'
  | '\\' => some '\\'
  | '/' => some '/'
  | 'b' => some '\x08'
  | 'f' => some '\x0c'
  | 'n' => some '\n'
  | 'r' => some '\r'
  | 't' => some '\t'
  | _ => none

/-- The pieces of a string up to its closing quote. -/
def pieces : List Char → Option (List Piece × List Char)
  | [] => none
  | '"' :: rest => some ([], rest)
  | '\\' :: 'u' :: a :: b :: c :: d :: rest => do
    let n ← Numeral.ofHexDigits? [a, b, c, d]
    let (more, rest) ← pieces rest
    return (.unit n :: more, rest)
  | '\\' :: c :: rest => do
    let c ← unescape? c
    let (more, rest) ← pieces rest
    return (.char c :: more, rest)
  | c :: rest => do
    if c.toNat < 32 then none
    else
      let (more, rest) ← pieces rest
      return (.char c :: more, rest)

def isHighHalf (n : Nat) : Bool := 0xd800 ≤ n && n < 0xdc00

def isLowHalf (n : Nat) : Bool := 0xdc00 ≤ n && n < 0xe000

/-- The characters of a string; the halves of a surrogate pair must stand together. -/
def join : List Piece → Option (List Char)
  | [] => some []
  | .char c :: rest => (join rest).map (c :: ·)
  | .unit high :: .unit low :: rest =>
    if isHighHalf high && isLowHalf low then
      (join rest).map (Char.ofNat (0x10000 + (high - 0xd800) * 0x400 + (low - 0xdc00)) :: ·)
    else if isHighHalf high || isLowHalf high then none
    else (join (.unit low :: rest)).map (Char.ofNat high :: ·)
  | .unit n :: rest =>
    if isHighHalf n || isLowHalf n then none else (join rest).map (Char.ofNat n :: ·)

/-- A string behind its opening quote. -/
def stringBody : Reader (Option String) := fun text =>
  (pieces text).map fun (found, rest) => ((join found).map String.ofList, rest)

/-- A key and the colon behind it. -/
def key : Reader (Option String) := do
  skipBlanks
  token "\""
  let name? ← stringBody
  skipBlanks
  token ":"
  return name?

/-! ## Values -/

/-- What comes first in the text that is left. -/
def peek : Reader (Option Char) := fun text => some (text.head?, text)

mutual

/-- A value with blanks around it. No more than `fuel` levels and items are read. -/
def value : Nat → Reader Json
  | 0 => failure
  | fuel + 1 => do
    skipBlanks
    let found ← bareValue fuel
    skipBlanks
    return found

/-- A value without the blanks around it. -/
def bareValue : Nat → Reader Json
  | 0 => failure
  | fuel + 1 => do
    match ← peek with
    | some 'n' => token "null"; return .null
    | some 't' => token "true"; return .bool true
    | some 'f' => token "false"; return .bool false
    | some '"' => token "\""; return .string (← stringBody)
    | some '[' =>
      token "["
      skipBlanks
      if (← peek) = some ']' then token "]"; return .array []
      else return .array (← items fuel)
    | some '\x7b' =>
      token "\x7b"
      skipBlanks
      if (← peek) = some '\x7d' then token "\x7d"; return .object []
      else return .object (← fields fuel)
    | _ => return .number (← number)

/-- The items of an array up to its closing bracket. -/
def items : Nat → Reader (List Json)
  | 0 => failure
  | fuel + 1 => do
    let item ← value fuel
    if (← peek) = some ',' then
      token ","
      return item :: (← items fuel)
    else
      token "]"
      return [item]

/-- The fields of an object up to its closing brace. -/
def fields : Nat → Reader (List (Option String × Json))
  | 0 => failure
  | fuel + 1 => do
    let name? ← key
    let item ← value fuel
    if (← peek) = some ',' then
      token ","
      return (name?, item) :: (← fields fuel)
    else
      token "\x7d"
      return [(name?, item)]

end

end Reader

/-- Reads a text as one JSON value. -/
def ofText? (text : String) : Option Json :=
  match Reader.value (3 * text.length + 3) text.toList with
  | some (found, []) => some found
  | _ => none

end Mba.Json
