import Mba.Power

/-!
# Numerals

Reading unsigned numerals of at most 64 bits, and writing numbers in base ten and sixteen. A numeral
is an optional `+` followed by one or more digits; leading zeros are allowed.

Results:
* `decimal?_toDigits`: every number below `2 ^ 64` is read back from its decimal digits.
-/

namespace Mba.Numeral

/-- The value of a hexadecimal digit, in either case. -/
def hexValue? (c : Char) : Option Nat :=
  if c.isDigit then some (c.toNat - '0'.toNat)
  else if 'a' ≤ c ∧ c ≤ 'f' then some (c.toNat - 'a'.toNat + 10)
  else if 'A' ≤ c ∧ c ≤ 'F' then some (c.toNat - 'A'.toNat + 10)
  else none

/-- The number that a list of hexadecimal digits stands for. -/
def ofHexDigits? (digits : List Char) : Option Nat :=
  digits.foldlM (fun n c => (hexValue? c).map (16 * n + ·)) 0

/-- The numeral without a leading `+`. -/
def dropPlus : List Char → List Char
  | '+' :: rest => rest
  | cs => cs

/-- The number, if it has at most 64 bits. -/
def fits64? (n : Nat) : Option Nat :=
  if n < 2 ^ 64 then some n else none

/-- Reads an unsigned decimal numeral of at most 64 bits. -/
def decimal? (text : List Char) : Option Nat :=
  let digits := dropPlus text
  if digits.isEmpty || !digits.all Char.isDigit then none
  else fits64? (Nat.ofDigitChars 10 digits 0)

/-- Reads an unsigned hexadecimal numeral of at most 64 bits, without a mark of the base. -/
def hexadecimal? (text : List Char) : Option Nat :=
  let digits := dropPlus text
  if digits.isEmpty then none
  else (ofHexDigits? digits).bind fits64?

/-- The number in base sixteen, marked by `0x`. -/
def hexText (n : Nat) : String :=
  "0x" ++ String.ofList (Nat.toDigits 16 n)

theorem dropPlus_toDigits (n : Nat) : dropPlus (Nat.toDigits 10 n) = Nat.toDigits 10 n := by
  cases h : Nat.toDigits 10 n with
  | nil => rfl
  | cons c rest =>
    have hc : c.isDigit = true :=
      Nat.isDigit_of_mem_toDigits (by decide) (by decide) (h ▸ List.mem_cons_self)
    rw [dropPlus]
    intro rest' heq
    obtain ⟨rfl, -⟩ := List.cons.inj heq
    exact absurd hc (by decide)

/-- **Every number below `2 ^ 64` is read back from its decimal digits.** -/
theorem decimal?_toDigits {n : Nat} (h : n < 2 ^ 64) : decimal? (Nat.toDigits 10 n) = some n := by
  have hall : (Nat.toDigits 10 n).all Char.isDigit = true :=
    List.all_eq_true.2 fun _ hc => Nat.isDigit_of_mem_toDigits (by decide) (by decide) hc
  have hne : (Nat.toDigits 10 n).isEmpty = false := by
    simp [Nat.toDigits_ne_nil]
  have hvalue : Nat.ofDigitChars 10 (Nat.toDigits 10 n) 0 = n :=
    Nat.ofDigitChars_toDigits (by decide) (by decide)
  simp only [decimal?, dropPlus_toDigits, hall, hne, hvalue, fits64?, if_pos h, Bool.not_true,
    Bool.or_false, Bool.false_eq_true, if_false]

end Mba.Numeral
