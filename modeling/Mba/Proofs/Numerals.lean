import Mathlib.Data.List.Forall2
import Mathlib.Data.Nat.Digits.Defs
import Mba.Proofs.Program.Copy

/-!
# What numerals stand for

The readers of numerals and of integers are compared with what the texts mean: digits with values in
a base, the number that a list of them stands for, and a range for each width.

Results:
* `decimal?_eq_some`, `hexadecimal?_eq_some`: the numerals of at most 64 bits.
* `ofSigned?_eq_some`: the signed range of a width.
* `readInt?_eq_some`: the texts of integers, and the words that they stand for.
* `readInt?_text`: the text of an integer is read back.
-/

namespace Mba

namespace Numeral

/-! ## Digits -/

/-- The character is the digit with the value `d`, in either case. -/
def IsDigit (base : Nat) (c : Char) (d : Nat) : Prop :=
  d < base ∧ (c = d.digitChar ∨ c = d.digitChar.toUpper)

/-- Digits that stand for `n`. -/
def DigitsOf (base : Nat) (digits : List Char) (n : Nat) : Prop :=
  ∃ values, List.Forall₂ (IsDigit base) digits values ∧ n = Nat.ofDigits base values.reverse

/-- An optional `+` and one digit or more, which stand for `n`. -/
def Denotes (base : Nat) (text : List Char) (n : Nat) : Prop :=
  ∃ sign digits, text = sign ++ digits ∧ (sign = [] ∨ sign = ['+']) ∧ digits ≠ [] ∧
    DigitsOf base digits n

theorem toNat_of_isDigit {c : Char} (h : c.isDigit = true) : 48 ≤ c.toNat ∧ c.toNat ≤ 57 := by
  simpa [Char.isDigit, UInt32.le_iff_toNat_le] using h

/-- What holds of the first 128 characters holds of a character among them. -/
theorem forall_ascii {P : Char → Prop} (h : ∀ n < 128, P (Char.ofNat n)) {c : Char}
    (hc : c.toNat < 128) : P c := by
  have := h c.toNat hc
  rwa [Char.ofNat_toNat] at this

theorem isDigit_ten_iff {c : Char} {d : Nat} :
    IsDigit 10 c d ↔ c.isDigit = true ∧ d = c.toNat - '0'.toNat := by
  constructor
  · rintro ⟨hd, hc⟩
    have hall : ∀ d < 10, d.digitChar.isDigit = true ∧ d.digitChar.toUpper = d.digitChar ∧
        d = d.digitChar.toNat - '0'.toNat := by decide
    obtain ⟨hdigit, hupper, hvalue⟩ := hall d hd
    rw [hupper, or_self] at hc
    rw [hc]
    exact ⟨hdigit, hvalue⟩
  · rintro ⟨hc, rfl⟩
    have hall : ∀ n < 128, (Char.ofNat n).isDigit = true →
        (Char.ofNat n).toNat - '0'.toNat < 10 ∧
          Char.ofNat n = ((Char.ofNat n).toNat - '0'.toNat).digitChar := by decide
    have hlt : c.toNat < 128 := by
      have := toNat_of_isDigit hc
      omega
    obtain ⟨hvalue, heq⟩ := forall_ascii (P := fun c => c.isDigit = true →
      c.toNat - '0'.toNat < 10 ∧ c = (c.toNat - '0'.toNat).digitChar) hall hlt hc
    exact ⟨hvalue, .inl heq⟩

theorem hexValue?_eq_some {c : Char} {d : Nat} : hexValue? c = some d ↔ IsDigit 16 c d := by
  constructor
  · intro h
    have hall : ∀ n < 128, ∀ d ∈ hexValue? (Char.ofNat n),
        d < 16 ∧ (Char.ofNat n = d.digitChar ∨ Char.ofNat n = d.digitChar.toUpper) := by decide
    have hlt : c.toNat < 128 := by
      unfold hexValue? at h
      split_ifs at h with hdigit hlower hupper
      · have := toNat_of_isDigit hdigit
        omega
      · exact Nat.lt_of_le_of_lt (UInt32.le_iff_toNat_le.1 hlower.2) (by decide)
      · exact Nat.lt_of_le_of_lt (UInt32.le_iff_toNat_le.1 hupper.2) (by decide)
    exact forall_ascii (P := fun c => ∀ d ∈ hexValue? c, IsDigit 16 c d) hall hlt d h
  · rintro ⟨hd, hc⟩
    have hall : ∀ d < 16, hexValue? d.digitChar = some d ∧
        hexValue? d.digitChar.toUpper = some d := by decide
    rcases hc with rfl | rfl
    · exact (hall d hd).1
    · exact (hall d hd).2

/-! ## Numbers -/

theorem ofDigits_reverse (base : Nat) (values : List Nat) :
    Nat.ofDigits base values.reverse = values.foldl (fun n d => d + base * n) 0 := by
  rw [Nat.ofDigits_eq_foldr, List.foldr_reverse]
  rfl

theorem ofHexDigits?_eq_some {digits : List Char} {n : Nat} :
    ofHexDigits? digits = some n ↔ DigitsOf 16 digits n := by
  have hfold : ∀ m, digits.foldlM (fun n c => (hexValue? c).map (16 * n + ·)) m = some n ↔
      ∃ values, List.Forall₂ (IsDigit 16) digits values ∧
        n = values.foldl (fun n d => d + 16 * n) m := by
    induction digits with
    | nil =>
      intro m
      constructor
      · rintro ⟨⟩
        exact ⟨[], .nil, rfl⟩
      · rintro ⟨values, hvalues, rfl⟩
        cases hvalues
        rfl
    | cons c rest ih =>
      intro m
      rw [List.foldlM_cons]
      constructor
      · intro h
        obtain ⟨m', hm', hrest⟩ := Option.bind_eq_some_iff.1 h
        obtain ⟨d, hd, rfl⟩ := Option.map_eq_some_iff.1 hm'
        obtain ⟨values, hvalues, rfl⟩ := (ih _).1 hrest
        exact ⟨d :: values, .cons (hexValue?_eq_some.1 hd) hvalues, by
          rw [List.foldl_cons, Nat.add_comm]⟩
      · rintro ⟨_, hvalues, rfl⟩
        cases hvalues with
        | @cons _ d _ values hd hvalues =>
          refine Option.bind_eq_some_iff.2 ⟨16 * m + d, ?_, (ih _).2 ⟨values, hvalues, ?_⟩⟩
          · rw [hexValue?_eq_some.2 hd, Option.map_some]
          · rw [List.foldl_cons, Nat.add_comm]
  rw [ofHexDigits?, hfold, DigitsOf]
  simp only [ofDigits_reverse]

theorem digitsOf_ten_iff {digits : List Char} {n : Nat} :
    DigitsOf 10 digits n ↔ (∀ c ∈ digits, c.isDigit = true) ∧ n = Nat.ofDigitChars 10 digits 0 := by
  have hfold : ∀ m, (∃ values, List.Forall₂ (IsDigit 10) digits values ∧
        n = values.foldl (fun n d => d + 10 * n) m) ↔
      (∀ c ∈ digits, c.isDigit = true) ∧ n = Nat.ofDigitChars 10 digits m := by
    induction digits with
    | nil =>
      intro m
      constructor
      · rintro ⟨values, hvalues, rfl⟩
        cases hvalues
        exact ⟨nofun, rfl⟩
      · rintro ⟨-, rfl⟩
        exact ⟨[], .nil, rfl⟩
    | cons c rest ih =>
      intro m
      rw [List.forall_mem_cons, Nat.ofDigitChars_cons]
      constructor
      · rintro ⟨_, hvalues, rfl⟩
        cases hvalues with
        | @cons _ d _ values hd hvalues =>
          obtain ⟨hc, rfl⟩ := isDigit_ten_iff.1 hd
          obtain ⟨hrest, hvalue⟩ := (ih _).1 ⟨values, hvalues, rfl⟩
          refine ⟨⟨hc, hrest⟩, hvalue.trans ?_⟩
          rw [Nat.add_comm]
      · rintro ⟨⟨hc, hrest⟩, rfl⟩
        obtain ⟨values, hvalues, hvalue⟩ := (ih _).2 ⟨hrest, rfl⟩
        refine ⟨_ :: values, .cons (isDigit_ten_iff.2 ⟨hc, rfl⟩) hvalues, ?_⟩
        rw [List.foldl_cons, hvalue, Nat.add_comm]
  rw [DigitsOf, ← hfold]
  simp only [ofDigits_reverse]

/-! ## Numerals -/

theorem fits64?_eq_some {m n : Nat} : fits64? m = some n ↔ m = n ∧ n < 2 ^ 64 := by
  unfold fits64?
  split <;> grind

/-- A numeral is an optional `+` and digits, none of which is a `+`. -/
theorem denotes_iff {base : Nat} {text : List Char} {n : Nat} (hbase : base ≤ 16) :
    Denotes base text n ↔ dropPlus text ≠ [] ∧ DigitsOf base (dropPlus text) n := by
  have hplus : ∀ {digits : List Char}, DigitsOf base digits n → dropPlus digits = digits := by
    rintro digits ⟨values, hvalues, -⟩
    cases hvalues with
    | nil => rfl
    | @cons c d digits values hd hvalues =>
      rw [dropPlus]
      rintro rest heq
      obtain ⟨rfl, -⟩ := List.cons.inj heq
      have hall : ∀ d < 16, '+' ≠ d.digitChar ∧ '+' ≠ d.digitChar.toUpper := by decide
      obtain ⟨hlower, hupper⟩ := hall d (Nat.lt_of_lt_of_le hd.1 hbase)
      exact hd.2.elim hlower hupper
  constructor
  · rintro ⟨sign, digits, rfl, rfl | rfl, hne, hdigits⟩
    · rw [List.nil_append, hplus hdigits]
      exact ⟨hne, hdigits⟩
    · exact ⟨hne, hdigits⟩
  · rintro ⟨hne, hdigits⟩
    by_cases hsign : text.head? = some '+'
    · obtain ⟨rest, rfl⟩ := List.head?_eq_some_iff.1 hsign
      exact ⟨['+'], rest, rfl, .inr rfl, hne, hdigits⟩
    · have heq : dropPlus text = text := by
        rw [dropPlus]
        rintro rest rfl
        exact hsign rfl
      rw [heq] at hne hdigits
      exact ⟨[], text, rfl, .inl rfl, hne, hdigits⟩

/-- Neither a sign nor a mark of a base is in front of digits. -/
theorem digits_front {digits : List Char} (h : ∀ c ∈ digits, c.isDigit = true) :
    digits.head? ≠ some '-' ∧ ∀ rest, digits ≠ '0' :: 'x' :: rest := by
  refine ⟨fun hhead => ?_, fun rest hrest => ?_⟩
  · exact absurd (h _ (List.mem_of_head? hhead)) (by decide)
  · rw [hrest] at h
    exact absurd (h 'x' (by simp)) (by decide)

theorem decimal?_digits {digits : List Char} (h : ∀ c ∈ digits, c.isDigit = true)
    (hne : digits ≠ []) : decimal? digits = fits64? (Nat.ofDigitChars 10 digits 0) := by
  have hplus : dropPlus digits = digits := by
    rw [dropPlus]
    rintro rest rfl
    exact absurd (h '+' List.mem_cons_self) (by decide)
  rw [decimal?, hplus, if_neg (by simp [hne, List.all_eq_true.2 h])]

/-- **The decimal numerals of at most 64 bits.** -/
theorem decimal?_eq_some {text : List Char} {n : Nat} :
    decimal? text = some n ↔ Denotes 10 text n ∧ n < 2 ^ 64 := by
  rw [denotes_iff (by decide), digitsOf_ten_iff, decimal?]
  split
  · next h =>
    rw [Bool.or_eq_true, List.isEmpty_iff, Bool.not_eq_true', ← Bool.not_eq_true,
      List.all_eq_true] at h
    constructor
    · rintro ⟨⟩
    · rintro ⟨⟨hne, hdigits, -⟩, -⟩
      exact absurd h (not_or.2 ⟨hne, not_not.2 hdigits⟩)
  · next h =>
    rw [Bool.or_eq_true, List.isEmpty_iff, Bool.not_eq_true', ← Bool.not_eq_true,
      List.all_eq_true, not_or, not_not] at h
    rw [fits64?_eq_some]
    constructor
    · rintro ⟨hn, hlt⟩
      exact ⟨⟨h.1, h.2, hn.symm⟩, hlt⟩
    · rintro ⟨⟨-, -, hn⟩, hlt⟩
      exact ⟨hn.symm, hlt⟩

/-- A decimal numeral has neither a sign nor a mark of a base in front. -/
theorem Denotes.front {text : List Char} {n : Nat} (h : Denotes 10 text n) :
    text.head? ≠ some '-' ∧ ∀ rest, text ≠ '0' :: 'x' :: rest := by
  obtain ⟨sign, digits, rfl, hsign, -, hdigits⟩ := h
  have hdigits := (digitsOf_ten_iff.1 hdigits).1
  have hchar : ∀ c ∈ sign ++ digits, c = '+' ∨ c.isDigit = true := by
    intro c hc
    rcases List.mem_append.1 hc with hc | hc
    · rcases hsign with rfl | rfl
      · cases hc
      · exact .inl (List.mem_singleton.1 hc)
    · exact .inr (hdigits c hc)
  refine ⟨fun hhead => ?_, fun rest hrest => ?_⟩
  · exact absurd (hchar _ (List.mem_of_head? hhead)) (by decide)
  · rw [hrest] at hchar
    exact absurd (hchar 'x' (by simp)) (by decide)

/-- **The hexadecimal numerals of at most 64 bits.** -/
theorem hexadecimal?_eq_some {text : List Char} {n : Nat} :
    hexadecimal? text = some n ↔ Denotes 16 text n ∧ n < 2 ^ 64 := by
  rw [denotes_iff (by decide), hexadecimal?]
  split
  · next h =>
    rw [List.isEmpty_iff] at h
    constructor
    · rintro ⟨⟩
    · rintro ⟨⟨hne, -⟩, -⟩
      exact absurd h hne
  · next h =>
    rw [List.isEmpty_iff] at h
    constructor
    · intro hsome
      obtain ⟨m, hm, hfits⟩ := Option.bind_eq_some_iff.1 hsome
      obtain ⟨rfl, hlt⟩ := fits64?_eq_some.1 hfits
      exact ⟨⟨h, ofHexDigits?_eq_some.1 hm⟩, hlt⟩
    · rintro ⟨⟨-, hdigits⟩, hlt⟩
      exact Option.bind_eq_some_iff.2
        ⟨n, ofHexDigits?_eq_some.2 hdigits, fits64?_eq_some.2 ⟨rfl, hlt⟩⟩

end Numeral

namespace Scalar

variable {w : Width} {text digits : List Char} {x : Scalar}

/-! ## Ranges -/

theorem signed_ofInt_eq_iff {v : Int} :
    w.signed (w.ofInt v) = v ↔ -2 ^ (w.bits - 1) ≤ v ∧ v < 2 ^ (w.bits - 1) := by
  rw [Width.signed_eq_bmod, Width.toNat_ofInt, Int.bmod_def]
  cases w <;> simp only [Width.bits] <;> omega

theorem eq_ofInt_iff {bits : UInt64} {v : Int} :
    bits = w.ofInt v ↔ (bits.toNat : Int) = v % 2 ^ w.bits := by
  rw [← w.toNat_ofInt, Int.natCast_inj, UInt64.toNat_inj]

/-- **The signed range of a width.** -/
theorem ofSigned?_eq_some {v : Int} : ofSigned? w v = some x ↔
    (-2 ^ (w.bits - 1) ≤ v ∧ v < 2 ^ (w.bits - 1)) ∧ x = .int w (w.ofInt v) := by
  rw [← signed_ofInt_eq_iff, ofSigned?]
  split
  · next h => simp [h, eq_comm]
  · next h => simp [h]

theorem ofSigned?_eq_none {v : Int} (h : 2 ^ 64 ≤ v.natAbs) : ofSigned? w v = none := by
  rw [Option.eq_none_iff_forall_ne_some]
  intro x hx
  obtain ⟨hrange, -⟩ := ofSigned?_eq_some.1 hx
  cases w <;> simp only [Width.bits] at hrange <;> omega

/-! ## Texts of integers -/

/-- The text of an integer with the magnitude `n`: an optional `-`, and a decimal numeral or, behind
`0x`, a hexadecimal one. -/
def IsIntText (negative hex : Bool) (n : Nat) (text : List Char) : Prop :=
  ∃ numeral, text = (if negative then ['-'] else []) ++ (if hex then ['0', 'x'] else []) ++ numeral ∧
    Numeral.Denotes (if hex then 16 else 10) numeral n ∧ n < 2 ^ 64

/-- The word that such a text stands for. A hexadecimal numeral without a sign is a pattern of bits,
and every other text a signed number. -/
def IsWordOf (w : Width) (negative hex : Bool) (n : Nat) (bits : UInt64) : Prop :=
  if hex = true ∧ negative = false then n < 2 ^ w.bits ∧ bits.toNat = n
  else
    let v : Int := if negative then -n else n
    (-2 ^ (w.bits - 1) ≤ v ∧ v < 2 ^ (w.bits - 1)) ∧ (bits.toNat : Int) = v % 2 ^ w.bits

/-- Neither a sign nor a mark of the base is in front of the digits. -/
theorem readInt?_digits (h : text.head? ≠ some '-') (hbase : ∀ rest, text ≠ '0' :: 'x' :: rest) :
    readInt? w text = (Numeral.decimal? text).bind fun n => ofSigned? w n := by
  unfold readInt?
  split
  · next negative magnitude heq =>
    have hsplit : (negative, magnitude) = (false, text) := by
      rw [← heq]
      split
      · exact absurd rfl h
      · rfl
    cases hsplit
    split
    · next rest => exact absurd rfl (hbase rest)
    · rfl

theorem readInt?_negative (hbase : ∀ rest, text ≠ '0' :: 'x' :: rest) :
    readInt? w ('-' :: text) = (Numeral.decimal? text).bind fun n => ofSigned? w (-(n : Int)) := by
  unfold readInt?
  dsimp only
  split
  · next digits heq => exact absurd heq (hbase digits)
  · rfl

theorem readInt?_pattern : readInt? w ('0' :: 'x' :: digits) =
    (Numeral.hexadecimal? digits).bind fun n =>
      if n ≤ w.mask.toNat then some (.int w (UInt64.ofNat n)) else none := by
  unfold readInt?
  simp

theorem readInt?_negative_hex : readInt? w ('-' :: '0' :: 'x' :: digits) =
    (Numeral.hexadecimal? digits).bind fun n => ofSigned? w (-(n : Int)) := by
  unfold readInt?
  simp

theorem isWordOf_signed {negative hex : Bool} (h : ¬ (hex = true ∧ negative = false)) {n : Nat} :
    (∃ bits, IsWordOf w negative hex n bits ∧ x = .int w bits) ↔
      ofSigned? w (if negative then -(n : Int) else n) = some x := by
  simp only [IsWordOf, if_neg h, ← eq_ofInt_iff, ofSigned?_eq_some]
  constructor
  · rintro ⟨_, ⟨hrange, rfl⟩, rfl⟩
    exact ⟨hrange, rfl⟩
  · rintro ⟨hrange, rfl⟩
    exact ⟨_, ⟨hrange, rfl⟩, rfl⟩

theorem isWordOf_pattern {n : Nat} :
    (∃ bits, IsWordOf w false true n bits ∧ x = .int w bits) ↔
      (if n ≤ w.mask.toNat then some (.int w (UInt64.ofNat n)) else none) = some x := by
  have hpow : 2 ^ w.bits ≤ 2 ^ 64 := by cases w <;> decide
  have hpos : 0 < 2 ^ w.bits := Nat.two_pow_pos _
  simp only [IsWordOf, and_self, if_true, w.toNat_mask, Nat.le_sub_one_iff_lt hpos]
  constructor
  · rintro ⟨bits, ⟨hn, rfl⟩, rfl⟩
    rw [if_pos hn, UInt64.ofNat_toNat]
  · intro h
    split at h
    · next hn =>
      cases h
      refine ⟨_, ⟨hn, ?_⟩, rfl⟩
      rw [UInt64.toNat_ofNat', Nat.mod_eq_of_lt (Nat.lt_of_lt_of_le hn hpow)]
    · cases h

/-- What reading the text of an integer gives. -/
theorem readInt?_of_isIntText {negative hex : Bool} {n : Nat} (h : IsIntText negative hex n text) :
    readInt? w text = some x ↔ ∃ bits, IsWordOf w negative hex n bits ∧ x = .int w bits := by
  obtain ⟨numeral, rfl, hnumeral, hn⟩ := h
  cases hex with
  | true =>
    have hread := Numeral.hexadecimal?_eq_some.2 ⟨hnumeral, hn⟩
    cases negative with
    | true =>
      show readInt? w ('-' :: '0' :: 'x' :: numeral) = some x ↔ _
      rw [readInt?_negative_hex, hread, Option.bind_some, isWordOf_signed (by simp), if_pos rfl]
    | false =>
      show readInt? w ('0' :: 'x' :: numeral) = some x ↔ _
      rw [readInt?_pattern, hread, Option.bind_some, isWordOf_pattern]
  | false =>
    have hread := Numeral.decimal?_eq_some.2 ⟨hnumeral, hn⟩
    cases negative with
    | true =>
      show readInt? w ('-' :: numeral) = some x ↔ _
      rw [readInt?_negative hnumeral.front.2, hread, Option.bind_some, isWordOf_signed (by simp),
        if_pos rfl]
    | false =>
      show readInt? w numeral = some x ↔ _
      rw [readInt?_digits hnumeral.front.1 hnumeral.front.2, hread, Option.bind_some,
        isWordOf_signed (by simp), if_neg (by simp)]

/-- Only texts of integers are read. -/
theorem exists_isIntText (h : readInt? w text = some x) :
    ∃ negative hex n, IsIntText negative hex n text := by
  have hmagnitude : ∀ {magnitude : List Char} (negative : Bool),
      text = (if negative then ['-'] else []) ++ magnitude →
      (negative = false → magnitude.head? ≠ some '-') →
      ∃ hex n, IsIntText negative hex n text := by
    intro magnitude negative htext hsign
    subst htext
    by_cases hbase : ∃ digits, magnitude = '0' :: 'x' :: digits
    · obtain ⟨digits, rfl⟩ := hbase
      have hread : ∃ n, Numeral.hexadecimal? digits = some n := by
        cases negative
        case false =>
          rw [if_neg (by simp), List.nil_append, readInt?_pattern] at h
          exact (Option.bind_eq_some_iff.1 h).imp fun _ => And.left
        case true =>
          rw [if_pos rfl, List.singleton_append, readInt?_negative_hex] at h
          exact (Option.bind_eq_some_iff.1 h).imp fun _ => And.left
      obtain ⟨n, hn⟩ := hread
      obtain ⟨hdenotes, hlt⟩ := Numeral.hexadecimal?_eq_some.1 hn
      exact ⟨true, n, digits, by simp, hdenotes, hlt⟩
    · have hbase : ∀ digits, magnitude ≠ '0' :: 'x' :: digits := not_exists.1 hbase
      have hread : ∃ n, Numeral.decimal? magnitude = some n := by
        cases negative
        case false =>
          rw [if_neg (by simp), List.nil_append, readInt?_digits (hsign rfl) hbase] at h
          exact (Option.bind_eq_some_iff.1 h).imp fun _ => And.left
        case true =>
          rw [if_pos rfl, List.singleton_append, readInt?_negative hbase] at h
          exact (Option.bind_eq_some_iff.1 h).imp fun _ => And.left
      obtain ⟨n, hn⟩ := hread
      obtain ⟨hdenotes, hlt⟩ := Numeral.decimal?_eq_some.1 hn
      exact ⟨false, n, magnitude, by simp, hdenotes, hlt⟩
  by_cases hsign : text.head? = some '-'
  · obtain ⟨rest, rfl⟩ := List.head?_eq_some_iff.1 hsign
    exact ⟨true, hmagnitude true rfl nofun⟩
  · exact ⟨false, hmagnitude false rfl fun _ => hsign⟩

/-- **The texts of integers**, and the words that they stand for. -/
theorem readInt?_eq_some : readInt? w text = some x ↔ ∃ negative hex n bits,
    IsIntText negative hex n text ∧ IsWordOf w negative hex n bits ∧ x = .int w bits := by
  constructor
  · intro h
    obtain ⟨negative, hex, n, htext⟩ := exists_isIntText h
    obtain ⟨bits, hword, hx⟩ := (readInt?_of_isIntText htext).1 h
    exact ⟨negative, hex, n, bits, htext, hword, hx⟩
  · rintro ⟨negative, hex, n, bits, htext, hword, hx⟩
    exact (readInt?_of_isIntText htext).2 ⟨bits, hword, hx⟩

/-! ## Texts of words -/

/-- **The text of an integer is read back**, if it has no bits above its width. -/
theorem readInt?_text {bits : UInt64} (h : w.wrap bits = bits) :
    readInt? w (Scalar.text (.int w bits)).toList = some (.int w bits) := by
  have hrange : -2 ^ (w.bits - 1) ≤ w.signed bits ∧ w.signed bits < 2 ^ (w.bits - 1) :=
    signed_ofInt_eq_iff.1 (by rw [w.ofInt_signed, w.signed_wrap])
  have hsigned : ofSigned? w (w.signed bits) = some (.int w bits) :=
    ofSigned?_eq_some.2 ⟨hrange, by rw [w.ofInt_signed, h]⟩
  have hmagnitude : (w.signed bits).natAbs < 2 ^ 64 := by
    cases w <;> simp only [Width.bits] at hrange <;> omega
  have hdigits : ∀ c ∈ Nat.toDigits 10 (w.signed bits).natAbs, c.isDigit = true := fun _ hc =>
    Nat.isDigit_of_mem_toDigits (by decide) (by decide) hc
  obtain ⟨hsign, hbase⟩ := Numeral.digits_front hdigits
  rw [Scalar.text, Int.toString_eq_repr, Int.repr_eq_if]
  split
  · next hnonneg =>
    have hnat : (w.signed bits).toNat = (w.signed bits).natAbs := by omega
    have hvalue : ((w.signed bits).natAbs : Int) = w.signed bits := by omega
    rw [Nat.toList_repr, hnat, readInt?_digits hsign hbase, Numeral.decimal?_toDigits hmagnitude,
      Option.bind_some, hvalue, hsigned]
  · next hneg =>
    have hnat : (-w.signed bits).toNat = (w.signed bits).natAbs := by omega
    have hvalue : -((w.signed bits).natAbs : Int) = w.signed bits := by omega
    rw [String.toList_append, Nat.toList_repr, hnat]
    show readInt? w ('-' :: Nat.toDigits 10 _) = _
    rw [readInt?_negative hbase, Numeral.decimal?_toDigits hmagnitude, Option.bind_some, hvalue,
      hsigned]

end Scalar

end Mba
