import Mba.Double.Basic
import Mba.Numeral

/-!
# Doubles in decimal

Reading a decimal text to the nearest double, and writing a double with the fewest digits that read
back to it.

A text is an optional sign followed by `inf`, `infinity` or `nan` in any case, or by digits with at
most one point among them and an optional exponent. The written form is positional, with a digit
after the point at least, or has an exponent; a `DecimalFormat` says where, and which of two equally
near decimals is taken.

Results:
* `shortest_reads_back`: the digits chosen for a magnitude read back to it.
-/

namespace Mba.Double

/-- The number `digits * 10 ^ exponent`. -/
structure Decimal where
  digits : Nat
  exponent : Int
  deriving DecidableEq, Repr

/-! ## From decimal to binary -/

/--
The magnitude of the double nearest to a decimal number. A number above `10 ^ 310` is infinite and
one below `10 ^ -330` is zero, which keeps the powers of ten small.
-/
def magnitudeOfDecimal (d : Decimal) : Nat :=
  if d.digits = 0 then 0
  else
    let point := d.exponent + (Nat.toDigits 10 d.digits).length
    if 311 < point then infinityMagnitude
    else if point < -330 then 0
    else if 0 ≤ d.exponent then nearest (d.digits * 10 ^ d.exponent.toNat * unitsPerOne) 1
    else nearest (d.digits * unitsPerOne) (10 ^ (-d.exponent).toNat)

/-- Reads the exponent of a decimal text: nothing, or `e` and an integer. -/
def readExponent? : List Char → Option Int
  | [] => some 0
  | e :: text =>
    if e = 'e' ∨ e = 'E' then
      let (negative, digits) : Bool × List Char := match text with
        | '-' :: rest => (true, rest)
        | '+' :: rest => (false, rest)
        | rest => (false, rest)
      if digits.isEmpty || !digits.all Char.isDigit then none
      else
        let n : Int := Nat.ofDigitChars 10 digits 0
        some (if negative then -n else n)
    else none

/-- A decimal text taken apart. -/
structure DecimalText where
  /-- The digits before the point. -/
  whole : List Char
  /-- The digits behind the point. -/
  fraction : List Char
  exponent : Int
  deriving DecidableEq, Repr

/-- Takes apart digits with at most one point among them and an optional exponent. -/
def DecimalText.read? (text : List Char) : Option DecimalText :=
  let whole := text.takeWhile Char.isDigit
  let afterWhole := text.dropWhile Char.isDigit
  let (fraction, tail) : List Char × List Char := match afterWhole with
    | '.' :: rest => (rest.takeWhile Char.isDigit, rest.dropWhile Char.isDigit)
    | rest => ([], rest)
  if whole.isEmpty && fraction.isEmpty then none
  else (readExponent? tail).map fun exponent => ⟨whole, fraction, exponent⟩

/-- The number that a decimal text stands for. -/
def DecimalText.decimal (t : DecimalText) : Decimal :=
  ⟨Nat.ofDigitChars 10 (t.whole ++ t.fraction) 0, t.exponent - t.fraction.length⟩

/-- Reads a decimal number. -/
def readDecimal? (text : List Char) : Option Decimal :=
  (DecimalText.read? text).map DecimalText.decimal

/-- The quiet pattern that the text `nan` stands for. -/
def nanMagnitude : Nat := infinityMagnitude + 2 ^ 51

/-- Reads the magnitude of a text without its sign. -/
def readMagnitude? (text : List Char) : Option Nat :=
  let name := String.ofList (text.map Char.toLower)
  if name = "inf" ∨ name = "infinity" then some infinityMagnitude
  else if name = "nan" then some nanMagnitude
  else (readDecimal? text).map magnitudeOfDecimal

/-- Reads a double from its text. -/
def read? (text : List Char) : Option Double :=
  match text with
  | '-' :: rest => (readMagnitude? rest).map (ofMagnitude true)
  | '+' :: rest => (readMagnitude? rest).map (ofMagnitude false)
  | rest => (readMagnitude? rest).map (ofMagnitude false)

/-! ## From binary to decimal -/

/-- The choices that a decimal text leaves open. -/
structure DecimalFormat where
  /-- The smallest place of the point, counted from the first digit, that is written positionally:
  `0.0001` has it at `-3`. -/
  firstPlace : Int
  /-- The largest place of the point that is written positionally: `1234567890123456.0` has it at
  `16`. -/
  lastPlace : Int
  /-- Whether a positive exponent has a `+`. -/
  signsExponent : Bool
  /-- Whether, of two equally near decimals, the one with an even last digit is taken, and not the
  larger one. -/
  tieToEven : Bool
  deriving DecidableEq, Repr

/-- The exact value of a positive finite magnitude, in units of `10 ^ -1074`. -/
def exactDecimal (magnitude : Nat) : Nat :=
  (ofMagnitude false magnitude).units * 5 ^ 1074

/-- Whether the lower of two neighbouring decimals comes first. The exact value is `rest` above it,
and `step` lies between the two. -/
def lowerFirst (tieToEven : Bool) (lowerDigits rest step : Nat) : Bool :=
  2 * rest < step || (tieToEven && 2 * rest == step && lowerDigits % 2 == 0)

/--
The decimal number with `count` digits that reads back to the magnitude, if there is one. Of the two
neighbours on the grid of such numbers the nearer one that reads back is taken.
-/
def shortestOfCount? (tieToEven : Bool) (magnitude count : Nat) : Option Decimal :=
  let exact := exactDecimal magnitude
  let cut := (Nat.toDigits 10 exact).length - count
  let step := 10 ^ cut
  let exponent : Int := (cut : Int) - 1074
  let lower : Decimal := ⟨exact / step, exponent⟩
  let upper : Decimal := ⟨exact / step + 1, exponent⟩
  let candidates :=
    if lowerFirst tieToEven lower.digits (exact % step) step then [lower, upper]
    else [upper, lower]
  candidates.find? fun d => magnitudeOfDecimal d == magnitude

/-- The fewest digits that read back to a positive finite magnitude. -/
def shortest? (tieToEven : Bool) (magnitude : Nat) : Option Decimal :=
  (List.range' 1 17).findSome? (shortestOfCount? tieToEven magnitude)

/-- **The digits chosen for a magnitude read back to it.** -/
theorem shortest_reads_back {tieToEven : Bool} {magnitude : Nat} {d : Decimal}
    (h : shortest? tieToEven magnitude = some d) : magnitudeOfDecimal d = magnitude := by
  obtain ⟨count, -, hcount⟩ := List.exists_of_findSome?_eq_some h
  have := List.find?_some hcount
  simpa using this

/-! ## Layout -/

/-- The digits of a number without the zeros at its end. -/
def significantDigits (n : Nat) : List Char :=
  ((Nat.toDigits 10 n).reverse.dropWhile (· == '0')).reverse

/-- A decimal exponent, with its sign if the format asks for it. -/
def exponentText (f : DecimalFormat) (exponent : Int) : List Char :=
  (if f.signsExponent && 0 ≤ exponent then ['+'] else []) ++ (toString exponent).toList

/-- The digits laid out with the decimal point at place `point`. -/
def layout (f : DecimalFormat) (digits : List Char) (point : Int) : List Char :=
  if f.firstPlace ≤ point ∧ point ≤ f.lastPlace then
    if point ≤ 0 then '0' :: '.' :: (List.replicate (-point).toNat '0' ++ digits)
    else
      let whole := digits.take point.toNat
      let fraction := digits.drop point.toNat
      whole ++ List.replicate (point.toNat - whole.length) '0' ++ '.' ::
        (if fraction.isEmpty then ['0'] else fraction)
  else
    let fraction := digits.drop 1
    digits.take 1 ++ (if fraction.isEmpty then [] else '.' :: fraction) ++ 'e' ::
      exponentText f (point - 1)

/-- The text of a magnitude that is a number. -/
def magnitudeText (f : DecimalFormat) (magnitude : Nat) : List Char :=
  if magnitude = 0 then ['0', '.', '0']
  else if magnitude = infinityMagnitude then ['i', 'n', 'f']
  else
    let d := (shortest? f.tieToEven magnitude).getD ⟨exactDecimal magnitude, -1074⟩
    layout f (significantDigits d.digits) (d.exponent + (Nat.toDigits 10 d.digits).length)

/-- The double in decimal. What is not a number has one text, without sign or payload. -/
def textIn (f : DecimalFormat) (x : Double) : String :=
  if x.isNaN then "NaN"
  else String.ofList ((if x.isNegative then ['-'] else []) ++ magnitudeText f x.magnitude)

/-- Programs and their values are positional from `1e-4` up to below `1e16`, an exponent has no `+`,
and a tie goes to the larger decimal. -/
def programFormat : DecimalFormat := ⟨-3, 16, false, false⟩

/-- The double as it stands in programs. -/
def text (x : Double) : String := x.textIn programFormat

end Mba.Double
