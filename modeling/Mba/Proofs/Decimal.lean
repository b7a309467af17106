import Mba.Double.Decimal

/-!
# Doubles are read back from their texts

The digits of a text are either the fewest that read back, which was tried, or all digits of the
double, which is a whole number of units of `10 ^ -1074`. The layout keeps their number but may add
zeros at the end, and rounding depends on the ratio alone.

Results:
* `nearest_congr`: equal ratios are rounded to the same double.
* `nearest_units`: the units of a finite double are rounded to it.
* `magnitudeOfDecimal_scale`: zeros at the end of the digits, made up for by the exponent, change
  nothing.
* `readDecimal?_layout`: a layout is read as its digits, with zeros at the end.
* `read?_textIn`: a double is read back from its text in its canonical form, which is the double
  itself if it is a number.
-/

namespace Mba.Double

/-! ## Rounding -/

theorem nearest_mul (num den : Nat) {c : Nat} (hc : 0 < c) :
    nearest (num * c) (den * c) = nearest num den := by
  have hdiv : num * c / (den * c) = num / den := Nat.mul_div_mul_right _ _ hc
  have hstep : ∀ cut, den * c * 2 ^ cut = den * 2 ^ cut * c := fun cut => Nat.mul_right_comm _ _ _
  have htwice : ∀ rest, 2 * (rest * c) = 2 * rest * c := fun rest => (Nat.mul_assoc _ _ _).symm
  have hlt : ∀ a b, (a * c < b * c) = (a < b) := fun a b => propext (Nat.mul_lt_mul_right hc)
  have hbeq : ∀ a b : Nat, (a * c == b * c) = (a == b) := by
    intro a b
    rw [Bool.eq_iff_iff, beq_iff_eq, beq_iff_eq]
    exact Nat.mul_left_inj (Nat.pos_iff_ne_zero.1 hc)
  simp only [nearest, hdiv, hstep, Nat.mul_div_mul_right _ _ hc, Nat.mul_mod_mul_right, htwice, hlt,
    hbeq]

/-- **Equal ratios are rounded to the same double.** -/
theorem nearest_congr {num den num' den' : Nat} (hden : 0 < den) (hden' : 0 < den')
    (h : num * den' = num' * den) : nearest num den = nearest num' den' := by
  rw [← nearest_mul num den hden', ← nearest_mul num' den' hden, h, Nat.mul_comm den den']

/-- **The units of a finite double are rounded to it.** -/
theorem nearest_units {m : Nat} (h : m < infinityMagnitude) :
    nearest (ofMagnitude false m).units 1 = m := by
  have hlt : m < 2 ^ 63 := Nat.lt_trans h (by decide)
  rw [units, magnitude_ofMagnitude hlt]
  split
  · have hsmall : m % 2 ^ 52 < 2 ^ 53 := by omega
    rw [nearest_of_lt hsmall]
    omega
  · next hexponent =>
    obtain ⟨e, he⟩ : ∃ e, m / 2 ^ 52 = e + 1 := ⟨m / 2 ^ 52 - 1, by omega⟩
    have hfraction : m % 2 ^ 52 < 2 ^ 52 := Nat.mod_lt _ (by decide)
    have hlog : ((2 ^ 52 + m % 2 ^ 52) * 2 ^ e).log2 = 52 + e := by
      have hpos : 2 ^ 52 + m % 2 ^ 52 ≠ 0 := by omega
      rw [Nat.log2_eq_iff (Nat.mul_ne_zero hpos (Nat.ne_of_gt (Nat.two_pow_pos e))), Nat.pow_add,
        show 52 + e + 1 = 53 + e by omega, Nat.pow_add]
      exact ⟨Nat.mul_le_mul_right _ (by omega), Nat.mul_lt_mul_of_pos_right (by omega)
        (Nat.two_pow_pos e)⟩
    have hcut : 52 + e + 1 - 53 = e := by omega
    simp only [nearest, he, Nat.add_sub_cancel, Nat.div_one, hlog, hcut, Nat.one_mul,
      Nat.mul_div_cancel _ (Nat.two_pow_pos e), Nat.mul_mod_left, Nat.mul_zero, Nat.not_lt_zero,
      decide_false, Bool.false_or]
    have hbeq : (0 == 2 ^ e) = false := by
      have := Nat.two_pow_pos e
      rw [beq_eq_false_iff_ne]
      omega
    rw [hbeq, Bool.false_and]
    simp only [Bool.false_eq_true, if_false, Nat.add_zero]
    omega

/-! ## Decimals -/

theorem toDigits_mul_pow {n : Nat} (hn : 0 < n) (k : Nat) :
    Nat.toDigits 10 (n * 10 ^ k) = Nat.toDigits 10 n ++ List.replicate k '0' := by
  induction k with
  | zero => simp
  | succ k ih =>
    have hpos : 0 < n * 10 ^ k := Nat.mul_pos hn (Nat.pow_pos (by decide))
    have hstep := Nat.toDigits_append_toDigits (b := 10) (d := 0) (by decide) hpos (by decide)
    rw [Nat.pow_succ, ← Nat.mul_assoc, Nat.mul_comm, ← Nat.add_zero (10 * _), ← hstep, ih,
      List.replicate_succ', List.append_assoc]
    rfl

/-- **Zeros at the end of the digits, made up for by the exponent, change nothing.** -/
theorem magnitudeOfDecimal_scale (n k : Nat) (e : Int) :
    magnitudeOfDecimal ⟨n * 10 ^ k, e - k⟩ = magnitudeOfDecimal ⟨n, e⟩ := by
  rcases Nat.eq_zero_or_pos n with rfl | hn
  · simp only [magnitudeOfDecimal, Nat.zero_mul, if_true]
  have hten : ∀ k, 0 < 10 ^ k := fun k => Nat.pow_pos (by decide)
  have hne : n * 10 ^ k ≠ 0 := Nat.ne_of_gt (Nat.mul_pos hn (hten k))
  have hpoint :
      e - k + ((Nat.toDigits 10 n).length + k : Nat) = e + (Nat.toDigits 10 n).length := by
    omega
  simp only [magnitudeOfDecimal, if_neg hne, if_neg (Nat.ne_of_gt hn), toDigits_mul_pow hn,
    List.length_append, List.length_replicate, hpoint]
  have hvalue : (if 0 ≤ e - k then nearest (n * 10 ^ k * 10 ^ (e - k).toNat * unitsPerOne) 1
      else nearest (n * 10 ^ k * unitsPerOne) (10 ^ (-(e - k)).toNat)) =
      if 0 ≤ e then nearest (n * 10 ^ e.toNat * unitsPerOne) 1
      else nearest (n * unitsPerOne) (10 ^ (-e).toNat) := by
    generalize unitsPerOne = units
    by_cases hlow : 0 ≤ e - k
    · rw [if_pos hlow, if_pos (show 0 ≤ e by omega)]
      refine congrArg (fun n => nearest (n * units) 1) ?_
      rw [Nat.mul_assoc, ← Nat.pow_add]
      congr 2
      omega
    · rw [if_neg hlow]
      by_cases hhigh : 0 ≤ e
      · rw [if_pos hhigh]
        refine nearest_congr (hten _) Nat.one_pos ?_
        have hpow : 10 ^ k = 10 ^ e.toNat * 10 ^ (-(e - k)).toNat := by
          rw [← Nat.pow_add]
          congr 1
          omega
        rw [hpow]
        ac_rfl
      · rw [if_neg hhigh]
        refine nearest_congr (hten _) (hten _) ?_
        have hpow : 10 ^ (-(e - k)).toNat = 10 ^ (-e).toNat * 10 ^ k := by
          rw [← Nat.pow_add]
          congr 1
          omega
        rw [hpow]
        ac_rfl
  rw [hvalue]

/-! ## All digits -/

theorem units_pos {m : Nat} (hpos : 0 < m) (h : m < infinityMagnitude) :
    0 < (ofMagnitude false m).units := by
  rw [units, magnitude_ofMagnitude (Nat.lt_trans h (by decide))]
  split
  · omega
  · exact Nat.mul_pos (by omega) (Nat.two_pow_pos _)

theorem units_lt {m e : Nat} (h : m < infinityMagnitude) (he : 2045 ≤ e) :
    (ofMagnitude false m).units < 2 ^ 53 * 2 ^ e := by
  rw [units, magnitude_ofMagnitude (Nat.lt_trans h (by decide))]
  split
  · have hfraction : m % 2 ^ 52 < 2 ^ 53 := by omega
    exact Nat.lt_of_lt_of_le hfraction (Nat.le_mul_of_pos_right _ (Nat.two_pow_pos e))
  · have hexponent : m / 2 ^ 52 - 1 ≤ e := by
      have : m / 2 ^ 52 < 2047 := Nat.div_lt_of_lt_mul (by rwa [Nat.mul_comm])
      omega
    have hfraction : 2 ^ 52 + m % 2 ^ 52 < 2 ^ 53 := by omega
    exact Nat.mul_lt_mul_of_lt_of_le hfraction (Nat.pow_le_pow_right Nat.two_pos hexponent)
      (Nat.two_pow_pos _)

/-- **All digits of a finite double read back to it.** -/
theorem magnitudeOfDecimal_exact {m : Nat} (hpos : 0 < m) (h : m < infinityMagnitude) :
    magnitudeOfDecimal ⟨exactDecimal m, -1074⟩ = m := by
  have hunits := units_pos hpos h
  have hbound := units_lt h (Nat.le_refl 2045)
  have hround := nearest_units h
  rw [exactDecimal]
  generalize (ofMagnitude false m).units = units at *
  have hfive : 10 ^ 743 ≤ 5 ^ 1074 := by decide +kernel
  have hten : 2 ^ 53 * 2 ^ 2045 * 5 ^ 1074 ≤ 10 ^ 1385 := by decide +kernel
  have hpow : ∀ k, 5 ^ k * 2 ^ k = 10 ^ k := fun k => (Nat.mul_pow 5 2 k).symm
  have hfivePos : ∀ k, 0 < 5 ^ k := fun k => Nat.pow_pos (by decide)
  have hsplit : 5 ^ 1074 * unitsPerOne = 10 ^ 1074 := by
    unfold unitsPerOne
    exact hpow 1074
  have hscale : ∀ k, nearest (units * 10 ^ k) (10 ^ k) = m := by
    intro k
    have hmul := nearest_mul units 1 (show 0 < 10 ^ k from Nat.pow_pos (by decide))
    rwa [Nat.one_mul, hround] at hmul
  have hdigits : ∀ k, 0 < k →
      ((Nat.toDigits 10 (units * 5 ^ 1074)).length ≤ k ↔ units * 5 ^ 1074 < 10 ^ k) :=
    fun k hk => Nat.length_toDigits_le_iff (by decide) hk
  have hlow := hdigits 743 (by decide)
  have hhigh := hdigits 1385 (by decide)
  have hne : units * 5 ^ 1074 ≠ 0 :=
    Nat.ne_of_gt (Nat.mul_pos hunits (hfivePos 1074))
  have hlower : 10 ^ 743 ≤ units * 5 ^ 1074 :=
    Nat.le_trans hfive (Nat.le_mul_of_pos_left _ hunits)
  have hupper : units * 5 ^ 1074 < 10 ^ 1385 :=
    Nat.lt_of_lt_of_le (Nat.mul_lt_mul_of_pos_right hbound (hfivePos 1074)) hten
  have hlength : 743 < (Nat.toDigits 10 (units * 5 ^ 1074)).length :=
    Nat.not_le.1 fun hle => absurd (hlow.1 hle) (Nat.not_lt.2 hlower)
  have hlength' : (Nat.toDigits 10 (units * 5 ^ 1074)).length ≤ 1385 := hhigh.2 hupper
  simp only [magnitudeOfDecimal, if_neg hne]
  rw [if_neg (by omega), if_neg (by omega), if_neg (by decide), Nat.mul_assoc, hsplit,
    show (- -1074 : Int).toNat = 1074 from rfl]
  exact hscale 1074

theorem digits_pos_of_magnitude {d : Decimal} {m : Nat} (hpos : 0 < m)
    (h : magnitudeOfDecimal d = m) : 0 < d.digits := by
  refine Nat.pos_of_ne_zero fun hd => ?_
  rw [magnitudeOfDecimal, if_pos hd] at h
  omega

/-- The digits written for a finite double. -/
def writtenDecimal (tieToEven : Bool) (m : Nat) : Decimal :=
  (shortest? tieToEven m).getD ⟨exactDecimal m, -1074⟩

/-- **The digits written for a finite double read back to it.** -/
theorem magnitudeOfDecimal_written (tieToEven : Bool) {m : Nat} (hpos : 0 < m)
    (h : m < infinityMagnitude) : magnitudeOfDecimal (writtenDecimal tieToEven m) = m := by
  rw [writtenDecimal]
  cases hshort : shortest? tieToEven m with
  | some d => exact shortest_reads_back hshort
  | none => exact magnitudeOfDecimal_exact hpos h

/-! ## Digits without zeros at the end -/

theorem significantDigits_spec {n : Nat} (hn : 0 < n) :
    (∀ c ∈ significantDigits n, c.isDigit = true) ∧ significantDigits n ≠ [] ∧
      ∃ k, n = Nat.ofDigitChars 10 (significantDigits n) 0 * 10 ^ k ∧
        (Nat.toDigits 10 n).length = (significantDigits n).length + k := by
  let zeros := (Nat.toDigits 10 n).reverse.takeWhile (· == '0')
  have hzeros : zeros = List.replicate zeros.length '0' := by
    refine List.eq_replicate_iff.2 ⟨rfl, fun c hc => ?_⟩
    exact eq_of_beq (List.all_eq_true.1 List.all_takeWhile c hc)
  have hsplit : Nat.toDigits 10 n = significantDigits n ++ List.replicate zeros.length '0' := by
    have := List.takeWhile_append_dropWhile (p := (· == '0')) (l := (Nat.toDigits 10 n).reverse)
    have hreverse := congrArg List.reverse this
    rw [List.reverse_append, List.reverse_reverse] at hreverse
    rw [← hreverse, significantDigits]
    congr 1
    show zeros.reverse = _
    rw [hzeros, List.reverse_replicate, List.length_replicate]
  have hvalue : n = Nat.ofDigitChars 10 (significantDigits n) 0 * 10 ^ zeros.length := by
    have := Nat.ofDigitChars_ten_toDigits (n := n)
    rw [hsplit, Nat.ofDigitChars_append, Nat.ofDigitChars_replicate_zero] at this
    rw [Nat.mul_comm, this]
  refine ⟨fun c hc => ?_, fun hnil => ?_, zeros.length, hvalue, ?_⟩
  · have hmem : c ∈ Nat.toDigits 10 n := hsplit ▸ List.mem_append_left _ hc
    exact Nat.isDigit_of_mem_toDigits (by decide) (by decide) hmem
  · rw [hnil, Nat.ofDigitChars_nil, Nat.zero_mul] at hvalue
    omega
  · have := congrArg List.length hsplit
    rwa [List.length_append, List.length_replicate] at this

/-! ## Layouts -/

/-- A digit is neither a letter nor a sign nor a point. -/
theorem ne_of_isDigit {c : Char} (h : c.isDigit = true) (d : Char) (hd : d.isDigit = false) :
    c ≠ d := by
  rintro rfl
  rw [h] at hd
  cases hd

theorem takeWhile_digits {digits rest : List Char} (h : ∀ c ∈ digits, c.isDigit = true)
    (hrest : ∀ c, rest.head? = some c → c.isDigit = false) :
    (digits ++ rest).takeWhile Char.isDigit = digits ∧
      (digits ++ rest).dropWhile Char.isDigit = rest := by
  rw [List.takeWhile_append_of_pos h, List.dropWhile_append_of_pos h]
  cases rest with
  | nil => simp
  | cons c rest => simp [hrest c rfl]

theorem DecimalText.read?_point {whole fraction tail : List Char}
    (hwhole : ∀ c ∈ whole, c.isDigit = true) (hne : whole ≠ [])
    (hfraction : ∀ c ∈ fraction, c.isDigit = true)
    (htail : ∀ c, tail.head? = some c → c.isDigit = false) :
    DecimalText.read? (whole ++ '.' :: (fraction ++ tail)) =
      (readExponent? tail).map fun exponent => ⟨whole, fraction, exponent⟩ := by
  have hpoint : ∀ c, ('.' :: (fraction ++ tail)).head? = some c → c.isDigit = false := by
    intro c hc
    cases hc
    decide
  obtain ⟨htake, hdrop⟩ := takeWhile_digits hwhole hpoint
  obtain ⟨htake', hdrop'⟩ := takeWhile_digits hfraction htail
  have hempty : whole.isEmpty = false := List.isEmpty_eq_false_iff.2 hne
  simp only [DecimalText.read?, htake, hdrop, htake', hdrop', hempty, Bool.false_and,
    Bool.false_eq_true, if_false]

theorem DecimalText.read?_point_end {whole fraction : List Char}
    (hwhole : ∀ c ∈ whole, c.isDigit = true) (hne : whole ≠ [])
    (hfraction : ∀ c ∈ fraction, c.isDigit = true) :
    DecimalText.read? (whole ++ '.' :: fraction) =
      (readExponent? []).map fun exponent => ⟨whole, fraction, exponent⟩ := by
  have htail : ∀ c, ([] : List Char).head? = some c → c.isDigit = false := by simp
  have hread := read?_point hwhole hne hfraction htail
  rwa [List.append_nil] at hread

theorem DecimalText.read?_whole {whole tail : List Char}
    (hwhole : ∀ c ∈ whole, c.isDigit = true) (hne : whole ≠ [])
    (htail : ∀ c, tail.head? = some c → c.isDigit = false ∧ c ≠ '.') :
    DecimalText.read? (whole ++ tail) =
      (readExponent? tail).map fun exponent => ⟨whole, [], exponent⟩ := by
  obtain ⟨htake, hdrop⟩ := takeWhile_digits hwhole fun c hc => (htail c hc).1
  have hempty : whole.isEmpty = false := List.isEmpty_eq_false_iff.2 hne
  simp only [DecimalText.read?, htake, hdrop, hempty, Bool.false_and, Bool.false_eq_true, if_false]
  split
  · exact absurd rfl (htail '.' rfl).2
  · rfl

/-- Digits behind a sign, or without one, are read as an exponent. -/
theorem readExponent?_digits (n : Nat) :
    readExponent? ('e' :: Nat.toDigits 10 n) = some (n : Int) ∧
      readExponent? ('e' :: '+' :: Nat.toDigits 10 n) = some (n : Int) ∧
        readExponent? ('e' :: '-' :: Nat.toDigits 10 n) = some (-(n : Int)) := by
  have hdigits : ∀ c ∈ Nat.toDigits 10 n, c.isDigit = true :=
    fun _ => Nat.isDigit_of_mem_toDigits (by decide) (by decide)
  have hall : (Nat.toDigits 10 n).all Char.isDigit = true := List.all_eq_true.2 hdigits
  have hempty : (Nat.toDigits 10 n).isEmpty = false :=
    List.isEmpty_eq_false_iff.2 Nat.toDigits_ne_nil
  refine ⟨?_, ?_, ?_⟩
  · cases hcs : Nat.toDigits 10 n with
    | nil => exact absurd hcs Nat.toDigits_ne_nil
    | cons c rest =>
      have hc := hdigits c (hcs ▸ List.mem_cons_self)
      have hvalue := Nat.ofDigitChars_ten_toDigits (n := n)
      rw [hcs] at hall hvalue
      simp only [readExponent?, true_or, if_true]
      split
      · next heq => exact absurd (List.cons.inj heq).1 (ne_of_isDigit hc '-' rfl)
      · next heq => exact absurd (List.cons.inj heq).1 (ne_of_isDigit hc '+' rfl)
      · simp [hall, hvalue]
  · simp [readExponent?, hempty, hall]
  · simp [readExponent?, hempty, hall]

theorem readExponent?_exponentText (f : DecimalFormat) (exponent : Int) :
    readExponent? ('e' :: exponentText f exponent) = some exponent := by
  rw [exponentText, Int.toString_eq_repr, Int.repr_eq_if]
  by_cases h : 0 ≤ exponent
  · obtain ⟨hplain, hplus, -⟩ := readExponent?_digits exponent.toNat
    rw [Int.toNat_of_nonneg h] at hplain hplus
    rw [if_pos h, Nat.toList_repr]
    cases f.signsExponent
    · exact hplain
    · simpa [h] using hplus
  · obtain ⟨-, -, hminus⟩ := readExponent?_digits (-exponent).toNat
    rw [Int.toNat_of_nonneg (by omega), Int.neg_neg] at hminus
    rw [if_neg h, String.toList_append, Nat.toList_repr]
    simpa [h] using hminus

theorem isDigit_of_mem_zeros {k : Nat} : ∀ c ∈ List.replicate k '0', c.isDigit = true := by
  intro c hc
  rw [List.eq_of_mem_replicate hc]
  rfl

section Layout

variable {digits : List Char} (hdigits : ∀ c ∈ digits, c.isDigit = true)
include hdigits

/-- Digits behind the point, and zeros between. -/
theorem readDecimal?_behind_point (k : Nat) :
    readDecimal? ('0' :: '.' :: (List.replicate k '0' ++ digits)) =
      some ⟨Nat.ofDigitChars 10 digits 0, -(k : Int) - digits.length⟩ := by
  have hfraction : ∀ c ∈ List.replicate k '0' ++ digits, c.isDigit = true := by
    intro c hc
    rcases List.mem_append.1 hc with hc | hc
    · exact isDigit_of_mem_zeros c hc
    · exact hdigits c hc
  have hread := DecimalText.read?_point_end (show ∀ c ∈ ['0'], c.isDigit = true by simp)
    (by simp) hfraction
  have hvalue : Nat.ofDigitChars 10 (['0'] ++ (List.replicate k '0' ++ digits)) 0 =
      Nat.ofDigitChars 10 digits 0 := by
    rw [Nat.ofDigitChars_append, Nat.ofDigitChars_append, Nat.ofDigitChars_replicate_zero]
    simp [Nat.ofDigitChars_cons]
  rw [readDecimal?, ← List.singleton_append, hread]
  simp only [readExponent?, Option.map_some, DecimalText.decimal, hvalue, List.length_append,
    List.length_replicate]
  congr 2
  omega

/-- Digits on both sides of the point. -/
theorem readDecimal?_around_point {n : Nat} (hpos : 0 < n) (hlt : n < digits.length) :
    readDecimal? (digits.take n ++ '.' :: digits.drop n) =
      some ⟨Nat.ofDigitChars 10 digits 0, n - digits.length⟩ := by
  have htake : digits.take n ≠ [] := by
    rw [← List.length_pos_iff, List.length_take]
    omega
  have hwhole : ∀ c ∈ digits.take n, c.isDigit = true := fun c hc =>
    hdigits c (List.mem_of_mem_take hc)
  have hfraction : ∀ c ∈ digits.drop n, c.isDigit = true := fun c hc =>
    hdigits c (List.mem_of_mem_drop hc)
  have hread := DecimalText.read?_point_end hwhole htake hfraction
  rw [readDecimal?, hread]
  simp only [readExponent?, Option.map_some, DecimalText.decimal, List.take_append_drop,
    List.length_drop]
  congr 2
  omega

variable (hne : digits ≠ [])
include hne

/-- Digits before the point, and zeros between. -/
theorem readDecimal?_before_point (k : Nat) :
    readDecimal? (digits ++ List.replicate k '0' ++ ['.', '0']) =
      some ⟨Nat.ofDigitChars 10 digits 0 * 10 ^ (k + 1), -1⟩ := by
  have hwhole : ∀ c ∈ digits ++ List.replicate k '0', c.isDigit = true := by
    intro c hc
    rcases List.mem_append.1 hc with hc | hc
    · exact hdigits c hc
    · exact isDigit_of_mem_zeros c hc
  have hvalue : Nat.ofDigitChars 10 (digits ++ List.replicate k '0' ++ ['0']) 0 =
      Nat.ofDigitChars 10 digits 0 * 10 ^ (k + 1) := by
    rw [List.append_assoc, ← List.replicate_succ', Nat.ofDigitChars_append,
      Nat.ofDigitChars_replicate_zero, Nat.mul_comm]
  have hread := DecimalText.read?_point_end hwhole (by simp [hne])
    (show ∀ c ∈ ['0'], c.isDigit = true by simp)
  rw [readDecimal?, hread]
  simp only [readExponent?, Option.map_some, DecimalText.decimal, hvalue, List.length_singleton]
  rfl

/-- Digits with an exponent, with one of them before the point. -/
theorem readDecimal?_exponent (f : DecimalFormat) (exponent : Int) :
    readDecimal? (digits.take 1 ++ (if (digits.drop 1).isEmpty then [] else '.' :: digits.drop 1) ++
        'e' :: exponentText f exponent) =
      some ⟨Nat.ofDigitChars 10 digits 0, exponent + 1 - digits.length⟩ := by
  have hpos := List.length_pos_iff.2 hne
  have hwhole : ∀ c ∈ digits.take 1, c.isDigit = true := fun c hc =>
    hdigits c (List.mem_of_mem_take hc)
  have hfraction : ∀ c ∈ digits.drop 1, c.isDigit = true := fun c hc =>
    hdigits c (List.mem_of_mem_drop hc)
  have hfirst : digits.take 1 ≠ [] := by
    rw [← List.length_pos_iff, List.length_take]
    omega
  have htail : ∀ c, ('e' :: exponentText f exponent).head? = some c →
      c.isDigit = false ∧ c ≠ '.' := by
    intro c hc
    cases hc
    decide
  split
  · next hnone =>
    have hone : digits.length = 1 := by
      have := List.drop_eq_nil_iff.1 (List.isEmpty_iff.1 hnone)
      omega
    rw [List.append_nil, readDecimal?, DecimalText.read?_whole hwhole hfirst htail,
      readExponent?_exponentText, List.take_of_length_le (Nat.le_of_eq hone)]
    simp only [Option.map_some, DecimalText.decimal, List.append_nil, List.length_nil, hone]
    congr 2
    omega
  · have hread := DecimalText.read?_point hwhole hfirst hfraction fun c hc => (htail c hc).1
    rw [readDecimal?, List.append_assoc, List.cons_append, hread, readExponent?_exponentText]
    simp only [Option.map_some, DecimalText.decimal, List.take_append_drop, List.length_drop]
    congr 2
    omega

/-- **A layout is read as its digits**, with zeros at the end that the exponent makes up for. -/
theorem readDecimal?_layout (f : DecimalFormat) (point : Int) :
    ∃ k : Nat, readDecimal? (layout f digits point) =
      some ⟨Nat.ofDigitChars 10 digits 0 * 10 ^ k, point - digits.length - k⟩ := by
  unfold layout
  split
  case isTrue =>
    split
    case isTrue hpoint =>
      refine ⟨0, (readDecimal?_behind_point hdigits _).trans ?_⟩
      rw [Nat.pow_zero, Nat.mul_one]
      congr 2
      omega
    case isFalse hpoint =>
      dsimp only
      split
      case isTrue hnone =>
        have hall : digits.length ≤ point.toNat :=
          List.drop_eq_nil_iff.1 (List.isEmpty_iff.1 hnone)
        rw [List.take_of_length_le hall]
        refine ⟨point.toNat - digits.length + 1, (readDecimal?_before_point hdigits hne _).trans ?_⟩
        congr 2
        omega
      case isFalse hsome =>
        have hlt : point.toNat < digits.length := by
          rw [List.isEmpty_iff, List.drop_eq_nil_iff] at hsome
          omega
        have hlength : (digits.take point.toNat).length = point.toNat := by
          rw [List.length_take]
          omega
        rw [hlength, Nat.sub_self, List.replicate_zero, List.append_nil]
        refine ⟨0, (readDecimal?_around_point hdigits (by omega) hlt).trans ?_⟩
        rw [Nat.pow_zero, Nat.mul_one]
        congr 2
        omega
  case isFalse =>
    refine ⟨0, (readDecimal?_exponent hdigits hne f _).trans ?_⟩
    rw [Nat.pow_zero, Nat.mul_one]
    congr 2
    omega

end Layout

/-! ## Doubles -/

theorem ofMagnitude_magnitude (x : Double) : ofMagnitude x.isNegative x.magnitude = x := by
  have hlt := x.bits.toNat_lt
  have hbits : (if x.isNegative then 2 ^ 63 + x.magnitude else x.magnitude) = x.bits.toNat := by
    simp only [isNegative, magnitude, decide_eq_true_eq]
    split <;> omega
  rw [ofMagnitude, hbits, UInt64.ofNat_toNat]

/-- A text that starts with a digit names no magnitude. -/
theorem readMagnitude?_of_isDigit {c : Char} {rest : List Char} (hc : c.isDigit = true) :
    readMagnitude? (c :: rest) = (readDecimal? (c :: rest)).map magnitudeOfDecimal := by
  have hlower : c.toLower = c := by
    have hle : ¬ (c.val ≥ 'A'.val ∧ c.val ≤ 'Z'.val) := by
      intro hupper
      rw [Char.isDigit, Bool.and_eq_true, decide_eq_true_eq, decide_eq_true_eq] at hc
      exact absurd (UInt32.le_trans hupper.1 hc.2) (by decide)
    exact dif_neg hle
  have hname : ∀ (d : Char) (name : List Char), d.isDigit = false →
      String.ofList ((c :: rest).map Char.toLower) ≠ String.ofList (d :: name) := by
    intro d name hd heq
    rw [String.ofList_inj, List.map_cons, hlower] at heq
    exact ne_of_isDigit hc d hd (List.cons.inj heq).1
  have hinf := hname 'i' ['n', 'f'] rfl
  have hinfinity := hname 'i' ['n', 'f', 'i', 'n', 'i', 't', 'y'] rfl
  have hnan := hname 'n' ['a', 'n'] rfl
  rw [readMagnitude?, if_neg (not_or.2 ⟨hinf, hinfinity⟩), if_neg hnan]

/-- **A layout starts with a digit**. -/
theorem exists_layout_cons (f : DecimalFormat) {digits : List Char}
    (hdigits : ∀ c ∈ digits, c.isDigit = true) (hne : digits ≠ []) (point : Int) :
    ∃ c rest, layout f digits point = c :: rest ∧ c.isDigit = true := by
  obtain ⟨d, more, rfl⟩ := List.exists_cons_of_ne_nil hne
  have hd := hdigits d List.mem_cons_self
  unfold layout
  split
  · split
    · exact ⟨'0', _, rfl, rfl⟩
    · obtain ⟨n, hn⟩ : ∃ n, point.toNat = n + 1 := ⟨point.toNat - 1, by omega⟩
      rw [hn]
      exact ⟨d, _, rfl, hd⟩
  · exact ⟨d, _, rfl, hd⟩

/-- The digits of a decimal number, laid out, are read as the magnitude that it rounds to. -/
theorem readMagnitude?_layout (f : DecimalFormat) {d : Decimal} (hd : 0 < d.digits) :
    let text := layout f (significantDigits d.digits)
      (d.exponent + (Nat.toDigits 10 d.digits).length)
    readMagnitude? text = some (magnitudeOfDecimal d) ∧
      ∀ c, text.head? = some c → c ≠ '-' ∧ c ≠ '+' := by
  obtain ⟨hdigits, hne, k, hvalue, hlength⟩ := significantDigits_spec hd
  obtain ⟨c, rest, hlayout, hc⟩ := exists_layout_cons f hdigits hne
    (d.exponent + (Nat.toDigits 10 d.digits).length)
  obtain ⟨j, hdecimal⟩ := readDecimal?_layout hdigits hne f
    (d.exponent + (Nat.toDigits 10 d.digits).length)
  refine ⟨?_, ?_⟩
  · have hscale := magnitudeOfDecimal_scale (Nat.ofDigitChars 10 (significantDigits d.digits) 0) k
      (d.exponent + k)
    rw [← hvalue, Int.add_sub_cancel] at hscale
    have hpoint : d.exponent + (Nat.toDigits 10 d.digits).length -
        (significantDigits d.digits).length = d.exponent + k := by omega
    rw [hlayout, readMagnitude?_of_isDigit hc, ← hlayout, hdecimal, Option.map_some,
      magnitudeOfDecimal_scale, hpoint, ← hscale]
  · intro c' hc'
    rw [hlayout] at hc'
    cases hc'
    exact ⟨ne_of_isDigit hc '-' rfl, ne_of_isDigit hc '+' rfl⟩

theorem magnitudeText_eq (f : DecimalFormat) {m : Nat} (hpos : 0 < m) (h : m < infinityMagnitude) :
    let d := writtenDecimal f.tieToEven m
    magnitudeText f m =
      layout f (significantDigits d.digits) (d.exponent + (Nat.toDigits 10 d.digits).length) := by
  rw [magnitudeText, if_neg (Nat.ne_of_gt hpos), if_neg (Nat.ne_of_lt h)]
  rfl

theorem readMagnitude?_magnitudeText (f : DecimalFormat) {m : Nat} (h : m ≤ infinityMagnitude) :
    readMagnitude? (magnitudeText f m) = some m ∧
      ∀ c, (magnitudeText f m).head? = some c → c ≠ '-' ∧ c ≠ '+' := by
  rcases Nat.eq_zero_or_pos m with rfl | hpos
  · rw [show magnitudeText f 0 = ['0', '.', '0'] from if_pos rfl]
    exact ⟨by decide +kernel, by simp⟩
  rcases Nat.lt_or_eq_of_le h with hlt | rfl
  · have hread := magnitudeOfDecimal_written f.tieToEven hpos hlt
    have hdigits : 0 < (writtenDecimal f.tieToEven m).digits :=
      digits_pos_of_magnitude hpos hread
    have hlayout := readMagnitude?_layout f hdigits
    rw [hread] at hlayout
    rw [magnitudeText_eq f hpos hlt]
    exact hlayout
  · rw [magnitudeText, if_neg (by decide), if_pos rfl]
    exact ⟨by decide +kernel, by simp⟩

/-- The double that the text of a double stands for: the double itself if it is a number, and
otherwise the pattern that the text `NaN` is read as. -/
def canonical (x : Double) : Double :=
  if x.isNaN then ofMagnitude false nanMagnitude else x

theorem canonical_of_isNaN {x : Double} (h : x.isNaN = true) :
    x.canonical = ofMagnitude false nanMagnitude := if_pos h

theorem canonical_eq_self {x : Double} (h : x.isNaN = false) : x.canonical = x := by
  rw [canonical, if_neg (by simp [h])]

theorem isNaN_canonical (x : Double) : x.canonical.isNaN = x.isNaN := by
  cases h : x.isNaN with
  | true =>
    rw [canonical_of_isNaN h]
    decide
  | false => rw [canonical_eq_self h, h]

theorem canonical_canonical (x : Double) : x.canonical.canonical = x.canonical := by
  cases h : x.isNaN with
  | true => rw [canonical_of_isNaN (x.isNaN_canonical.trans h), canonical_of_isNaN h]
  | false => rw [canonical_eq_self h, canonical_eq_self h]

/-- A double and its canonical form have the same text. -/
theorem textIn_canonical (f : DecimalFormat) (x : Double) : x.canonical.textIn f = x.textIn f := by
  cases h : x.isNaN with
  | true => rw [textIn, textIn, isNaN_canonical, if_pos h, if_pos h]
  | false => rw [canonical_eq_self h]

theorem read?_textIn_of_isNumber (f : DecimalFormat) {x : Double} (h : x.isNaN = false) :
    read? (x.textIn f).toList = some x := by
  have hle : x.magnitude ≤ infinityMagnitude := Nat.not_lt.1 (of_decide_eq_false h)
  obtain ⟨hread, hhead⟩ := readMagnitude?_magnitudeText f hle
  have hx := x.ofMagnitude_magnitude
  rw [textIn, if_neg (by simp [h]), String.toList_ofList]
  cases hneg : x.isNegative with
  | true =>
    rw [hneg] at hx
    rw [if_pos rfl, List.singleton_append, read?, hread, Option.map_some, hx]
  | false =>
    rw [hneg] at hx
    rw [if_neg (by decide), List.nil_append]
    unfold read?
    split
    · next heq => exact absurd rfl (hhead '-' (by rw [heq]; rfl)).1
    · next heq => exact absurd rfl (hhead '+' (by rw [heq]; rfl)).2
    · rw [hread, Option.map_some, hx]

/-- **A double is read back from its text** in its canonical form. -/
theorem read?_textIn (f : DecimalFormat) (x : Double) :
    read? (x.textIn f).toList = some x.canonical := by
  cases h : x.isNaN with
  | true =>
    rw [textIn, if_pos h, canonical_of_isNaN h]
    decide +kernel
  | false => rw [read?_textIn_of_isNumber f h, canonical_eq_self h]

/-! ## The characters of a text -/

/-- The characters that the text of a number is made of. -/
def IsNumberChar (c : Char) : Prop :=
  c.isAlphanum = true ∨ c = '.' ∨ c = '-' ∨ c = '+'

theorem IsNumberChar.of_isDigit {c : Char} (h : c.isDigit = true) : IsNumberChar c :=
  .inl (by rw [Char.isAlphanum, h, Bool.or_true])

theorem isNumberChar_of_mem_toString {n : Int} {c : Char} (hc : c ∈ (toString n).toList) :
    IsNumberChar c := by
  have hdigits : ∀ k, ∀ c ∈ Nat.toDigits 10 k, IsNumberChar c :=
    fun k c hc => .of_isDigit (Nat.isDigit_of_mem_toDigits (by decide) (by decide) hc)
  rw [Int.toString_eq_repr, Int.repr_eq_if] at hc
  split at hc
  · rw [Nat.toList_repr] at hc
    exact hdigits _ c hc
  · rw [String.toList_append, Nat.toList_repr] at hc
    rcases List.mem_append.1 hc with hc | hc
    · rw [List.mem_singleton.1 hc]
      exact .inr (.inr (.inl rfl))
    · exact hdigits _ c hc

theorem isNumberChar_of_mem_layout (f : DecimalFormat) {digits : List Char}
    (hdigits : ∀ c ∈ digits, c.isDigit = true) {point : Int} {c : Char}
    (hc : c ∈ layout f digits point) : IsNumberChar c := by
  have hdigit : ∀ c ∈ digits, IsNumberChar c := fun c hc => .of_isDigit (hdigits c hc)
  have htake : ∀ n, ∀ c ∈ digits.take n, IsNumberChar c :=
    fun n c hc => hdigit c (List.mem_of_mem_take hc)
  have hdrop : ∀ n, ∀ c ∈ digits.drop n, IsNumberChar c :=
    fun n c hc => hdigit c (List.mem_of_mem_drop hc)
  have hzero : IsNumberChar '0' := .of_isDigit rfl
  have hpoint : IsNumberChar '.' := .inr (.inl rfl)
  have hzeros : ∀ k, ∀ c ∈ List.replicate k '0', IsNumberChar c :=
    fun k c hc => List.eq_of_mem_replicate hc ▸ hzero
  unfold layout at hc
  split at hc
  · split at hc
    · simp only [List.mem_cons, List.mem_append] at hc
      grind
    · have hfraction : ∀ c ∈ (if (digits.drop point.toNat).isEmpty then ['0']
          else digits.drop point.toNat), IsNumberChar c := by
        intro c hc
        split at hc
        · exact List.mem_singleton.1 hc ▸ hzero
        · exact hdrop _ c hc
      simp only [List.mem_cons, List.mem_append] at hc
      grind
  · have hfraction : ∀ c ∈ (if (digits.drop 1).isEmpty then [] else '.' :: digits.drop 1),
        IsNumberChar c := by
      intro c hc
      split at hc
      · cases hc
      · rcases List.mem_cons.1 hc with rfl | hc
        · exact hpoint
        · exact hdrop _ c hc
    have hletter : IsNumberChar 'e' := .inl rfl
    have hexponent : ∀ c ∈ exponentText f (point - 1), IsNumberChar c := by
      intro c hc
      rcases List.mem_append.1 hc with hc | hc
      · split at hc
        · exact List.mem_singleton.1 hc ▸ .inr (.inr (.inr rfl))
        · cases hc
      · exact isNumberChar_of_mem_toString hc
    simp only [List.mem_cons, List.mem_append] at hc
    grind

/-- The text of a double is made of letters, digits, points and signs. -/
theorem isNumberChar_of_mem_textIn (f : DecimalFormat) {x : Double} {c : Char}
    (hc : c ∈ (x.textIn f).toList) : IsNumberChar c := by
  cases h : x.isNaN with
  | true =>
    rw [textIn, if_pos h] at hc
    have hname : c ∈ ['N', 'a', 'N'] := hc
    simp only [List.mem_cons, List.not_mem_nil, or_false] at hname
    rcases hname with rfl | rfl | rfl <;> exact .inl rfl
  | false =>
    have hle : x.magnitude ≤ infinityMagnitude := Nat.not_lt.1 (of_decide_eq_false h)
    rw [textIn, if_neg (by simp [h]), String.toList_ofList] at hc
    rcases List.mem_append.1 hc with hc | hc
    · split at hc
      · exact List.mem_singleton.1 hc ▸ .inr (.inr (.inl rfl))
      · cases hc
    · rcases Nat.eq_zero_or_pos x.magnitude with hzero | hpos
      · rw [magnitudeText, if_pos hzero] at hc
        simp only [List.mem_cons, List.not_mem_nil, or_false] at hc
        rcases hc with rfl | rfl | rfl
        · exact .of_isDigit rfl
        · exact .inr (.inl rfl)
        · exact .of_isDigit rfl
      · rcases Nat.lt_or_eq_of_le hle with hlt | hinf
        · have hread := magnitudeOfDecimal_written f.tieToEven hpos hlt
          have hdigits : 0 < (writtenDecimal f.tieToEven x.magnitude).digits :=
            digits_pos_of_magnitude (by omega) hread
          rw [magnitudeText_eq f hpos hlt] at hc
          exact isNumberChar_of_mem_layout f (significantDigits_spec hdigits).1 hc
        · rw [magnitudeText, if_neg (Nat.ne_of_gt hpos), if_pos hinf] at hc
          simp only [List.mem_cons, List.not_mem_nil, or_false] at hc
          rcases hc with rfl | rfl | rfl <;> exact .inl rfl

end Mba.Double
