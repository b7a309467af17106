import Mba.Double.Decimal
import Mba.Listing.Basic

/-!
# Taking a text apart

A scanner takes characters off the front of a text. Where it fails it says what is left of the text:
a token that is not found takes nothing, and a sequence stops where its first missing token should
be. `optional` and `separated` go back to where the missing part began.
-/

namespace Mba.Listing

/-- A scanner gives its answer and the rest of the text, or the rest at which it failed. -/
abbrev Scanner (α : Type) := StateT (List Char) (Except (List Char)) α

namespace Scanner

variable {α β : Type}

/-- Fails and takes nothing. -/
def fail : Scanner α := fun text => .error text

/-- Takes the longest run of characters in the class; the run may be empty. -/
def takeMany (inClass : Char → Bool) : Scanner (List Char) := fun text =>
  .ok (text.takeWhile inClass, text.dropWhile inClass)

/-- Takes a run of characters in the class, one at least. -/
def takeSome (inClass : Char → Bool) : Scanner (List Char) := fun text =>
  if (text.takeWhile inClass).isEmpty then .error text
  else .ok (text.takeWhile inClass, text.dropWhile inClass)

/-- Takes the given characters. -/
def token (expected : List Char) : Scanner Unit := fun text =>
  if expected.isPrefixOf text then .ok ((), text.drop expected.length) else .error text

/-- Takes what the scanner takes, or nothing where it fails. -/
def optional (scan : Scanner α) : Scanner (Option α) := fun text =>
  match scan text with
  | .ok (a, rest) => .ok (some a, rest)
  | .error _ => .ok (none, text)

/-- Takes as many further items as follow, each behind a comma. No more than `fuel` are taken. -/
def itemsAfterComma (item : Scanner α) : Nat → Scanner (List α)
  | 0 => pure []
  | fuel + 1 => do
    match ← optional (do token [',']; item) with
    | none => pure []
    | some a => return a :: (← itemsAfterComma item fuel)

/-- Takes one item or more, with commas between them. -/
def separated (item : Scanner α) : Scanner (List α) := do
  let first ← item
  let text ← get
  return first :: (← itemsAfterComma item text.length)

/-! ## Tokens -/

def isSpace (c : Char) : Bool :=
  c = ' ' || c = '\t' || c = '\n' || c = '\r' || c = '\x0c'

def isBlank (c : Char) : Bool :=
  c = ' ' || c = '\t'

/-- Letters, digits and `_`, of which names are made. -/
def isNameChar (c : Char) : Bool :=
  c.isAlphanum || c = '_'

def isNameStart (c : Char) : Bool :=
  c.isAlpha || c = '_'

/-- White space, line ends among it. -/
def space : Scanner Unit := do
  let _ ← takeMany isSpace

/-- White space within a line. -/
def blank : Scanner Unit := do
  let _ ← takeMany isBlank

/-- A name that does not start with a digit. -/
def identifier : Scanner (List Char) := fun text =>
  match text with
  | c :: _ =>
    if isNameStart c then takeMany isNameChar text else .error text
  | [] => .error text

/-- A name, or two with a point between them. -/
def mnemonic : Scanner String := do
  let head ← identifier
  match ← optional (do token ['.']; identifier) with
  | none => return String.ofList head
  | some tail => return String.ofList (head ++ '.' :: tail)

/-- The name of a value, behind a `%`. -/
def valueName : Scanner String := do
  token ['%']
  return String.ofList (← takeSome isNameChar)

/-- The digits of a natural number without leading zeros; of `007` they are the first `0`. -/
def naturalDigits : Scanner (List Char) := fun text =>
  match text with
  | '0' :: rest => .ok (['0'], rest)
  | _ => takeSome Char.isDigit text

/-- An integer of 64 bits in decimal. -/
def integer : Scanner Int := do
  let negative := (← optional (token ['-'])).isSome
  let n : Int := Nat.ofDigitChars 10 (← naturalDigits) 0
  let value := if negative then -n else n
  if -2 ^ 63 ≤ value ∧ value < 2 ^ 63 then return value else fail

/-- The characters of which the text of a double is made. -/
def isDoubleChar (c : Char) : Bool :=
  c.isAlphanum || c = '.' || c = '-' || c = '+'

def double : Scanner Double := do
  match Double.read? (← takeSome isDoubleChar) with
  | some x => return x
  | none => fail

/-! ## Lines -/

/-- `%name: type`, with white space anywhere between the tokens. -/
def param : Scanner (String × String) := do
  space
  let name ← valueName
  space
  token [':']
  space
  let ty ← identifier
  space
  return (name, String.ofList ty)

/-- The header up to and with the opening brace. -/
def header : Scanner Header := do
  space
  token "program".toList
  space
  token ['@']
  let name ← identifier
  token ['(']
  space
  let params ← optional (separated param)
  space
  token [')']
  space
  token ['\x7b']
  return ⟨String.ofList name, params.getD []⟩

/-- The constant that a mnemonic calls for. -/
def literal (mnemonic : String) : Scanner (Option Literal) :=
  if mnemonic = "const" then return some (.int (← integer))
  else if mnemonic = "fconst" then return some (.double (← double))
  else return none

/-- One operation, which starts at the given offset, and the blanks after it. -/
def line (offset : Nat) : Scanner Line := do
  let result? ← optional do
    let name ← valueName
    blank
    token ['=']
    blank
    return name
  let mnemonic ← mnemonic
  blank
  let literal? ← literal mnemonic
  blank
  let operands ← optional <| separated do
    blank
    let name ← valueName
    blank
    return name
  let ty? ← optional do
    blank
    token [':']
    blank
    identifier
  blank
  return ⟨offset, result?, mnemonic, literal?, operands.getD [], ty?.map String.ofList⟩

end Scanner

open Scanner

/-! ## The whole text -/

/-- The length of a text in bytes. -/
def byteLength (text : List Char) : Nat :=
  text.foldl (fun bytes c => bytes + c.utf8Size) 0

/-- Puts a character before the first line. -/
def consToFirst (c : Char) : List (List Char) → List (List Char)
  | [] => [[c]]
  | line :: more => (c :: line) :: more

/-- The lines of a text, without the line feeds between them. A text has one line at least. -/
def splitLines (text : List Char) : List (List Char) :=
  text.foldr (fun c lines => if c = '\n' then [] :: lines else consToFirst c lines) [[]]

/-- Whether an operation may end before the rest of its line: nothing is left, or only the carriage
return of a line break. -/
def endsLine (rest : List Char) (isLast : Bool) : Bool :=
  match rest with
  | [] => true
  | ['\r'] => !isLast
  | _ => false

/-- The place of the first character that is not white space, given the place of the first line. -/
def firstInk? : Nat → List (List Char) → Option Nat
  | _, [] => none
  | offset, line :: more =>
    match line.dropWhile isSpace with
    | [] => firstInk? (offset + byteLength line + 1) more
    | text => some (offset + (line.length - text.length))

/-- The operations on lines, of which the first starts at the given offset, up to the closing brace.
Behind the brace may be white space only. -/
def scanLines : Nat → List (List Char) → Except ReadError (List Line)
  | offset, [] => .error ⟨.missingBrace, offset⟩
  | offset, line :: more =>
    let text := line.dropWhile isSpace
    let start := offset + (line.length - text.length)
    let next := offset + byteLength line + (if more.isEmpty then 0 else 1)
    match text with
    | [] => scanLines next more
    | '\x7d' :: rest =>
      match firstInk? (start + 1) (rest :: more) with
      | none => .ok []
      | some place => .error ⟨.trailingInput, place⟩
    | text =>
      match Scanner.line start text with
      | .error _ => .error ⟨.operation, start⟩
      | .ok (found, rest) =>
        if endsLine rest more.isEmpty then (scanLines next more).map (found :: ·)
        else .error ⟨.afterOperation, start + (byteLength text - byteLength rest)⟩

/-- **Takes the text of a program apart.** -/
def ofText (text : String) : Except ReadError Listing :=
  let chars := text.toList
  match Scanner.header chars with
  | .error rest => .error ⟨.header, byteLength chars - byteLength rest⟩
  | .ok (header, rest) =>
    let offset := byteLength chars - byteLength rest
    (scanLines offset (splitLines rest)).map fun lines => ⟨header, lines⟩

end Mba.Listing
