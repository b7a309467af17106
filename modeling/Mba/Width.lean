import Mba.Power

/-!
# Integer widths

An integer of width `w` is kept as the low `w.bits` bits of a 64-bit word. `wrap` drops the other
bits, `signExtend` reads the kept ones as a signed number of 64 bits, `signed` is its value, and
`ofInt` writes a number back.

Results:
* `toNat_wrap`: wrapping is the remainder modulo `2 ^ w.bits`.
* `toNat_ofInt`: a number is written as its remainder modulo `2 ^ w.bits`.
* `wrap_wrap`: wrapping twice is wrapping once.
* `signed_eq_bmod`: shifting the sign bit up and down again gives the two's-complement reading.
* `signed_wrap`: the bits above the width do not matter to the signed reading.
-/

namespace Mba

/-- The width of an integer type. -/
inductive Width
  | w8
  | w16
  | w32
  | w64
  deriving DecidableEq, Repr

namespace Width

/-- Every width, narrowest first. -/
def all : List Width := [.w8, .w16, .w32, .w64]

/-- The number of bits. -/
def bits : Width → Nat
  | .w8 => 8
  | .w16 => 16
  | .w32 => 32
  | .w64 => 64

/-- The word whose low `w.bits` bits are set. -/
@[inline]
def mask : Width → UInt64
  | .w8 => 0xff
  | .w16 => 0xffff
  | .w32 => 0xffffffff
  | .w64 => 0xffffffffffffffff

/-- The word cut to the width: the bits above it are cleared. -/
@[inline]
def wrap (w : Width) (word : UInt64) : UInt64 :=
  word &&& w.mask

/-- The number of bits of a word above the width. -/
@[inline]
def spare (w : Width) : UInt64 :=
  64 - UInt64.ofNat w.bits

/-- The low `w.bits` bits as a signed number. The word is shifted up until its bits above the width
are gone, and then down again, which copies the sign bit to them. -/
@[inline]
def signExtend (w : Width) (word : UInt64) : Int64 :=
  (word <<< w.spare).toInt64 >>> w.spare.toInt64

/-- The low `w.bits` bits read as a two's-complement number, from `-2 ^ (bits - 1)` up to below
`2 ^ (bits - 1)`. -/
def signed (w : Width) (word : UInt64) : Int :=
  (w.signExtend word).toInt

/-- The word of width `w` that stands for `value` modulo `2 ^ w.bits`. -/
@[inline]
def ofInt (w : Width) (value : Int) : UInt64 :=
  w.wrap (Int64.ofInt value).toUInt64

/-! ## The width as a modulus -/

theorem toNat_mask (w : Width) : w.mask.toNat = 2 ^ w.bits - 1 := by
  cases w <;> rfl

/-- **Wrapping is the remainder modulo `2 ^ w.bits`.** -/
theorem toNat_wrap (w : Width) (word : UInt64) : (w.wrap word).toNat = word.toNat % 2 ^ w.bits := by
  rw [wrap, UInt64.toNat_and, toNat_mask, Nat.and_two_pow_sub_one_eq_mod]

/-- **A number is written as its remainder modulo `2 ^ w.bits`.** -/
theorem toNat_ofInt (w : Width) (value : Int) :
    ((w.ofInt value).toNat : Int) = value % 2 ^ w.bits := by
  have hword : ((Int64.ofInt value).toUInt64.toNat : Int) = value % 2 ^ 64 := by
    show ((BitVec.ofInt 64 value).toNat : Int) = _
    rw [BitVec.toNat_ofInt]
    omega
  rw [ofInt, toNat_wrap, Int.natCast_emod, hword]
  cases w <;> simp only [bits] <;> omega

theorem wrap_wrap (w : Width) (word : UInt64) : w.wrap (w.wrap word) = w.wrap word := by
  apply UInt64.toNat_inj.1
  simp only [toNat_wrap, Nat.mod_mod]

theorem ofInt_bmod (w : Width) (value : Int) : w.ofInt (value.bmod (2 ^ 64)) = w.ofInt value := by
  have hword : Int64.ofInt (value.bmod (2 ^ 64)) = Int64.ofInt value := by
    rw [← Int64.toInt_inj, Int64.toInt_ofInt, Int64.toInt_ofInt]
    exact Int.bmod_bmod
  rw [ofInt, hword, ofInt]

/-! ## The signed reading -/

theorem wrap_toUInt64 (w : Width) (value : Int64) :
    w.wrap value.toUInt64 = w.ofInt value.toInt := by
  rw [ofInt, Int64.ofInt_toInt]

theorem toInt_signExtend (w : Width) (word : UInt64) :
    (w.signExtend word).toInt = w.signed word := rfl

theorem signExtend_eq_zero_iff (w : Width) (word : UInt64) :
    w.signExtend word = 0 ↔ w.signed word = 0 :=
  Int64.toInt_inj.symm

/-- A shift down by less than the number of bits of a word divides and rounds down. -/
theorem toInt_shiftRight {amount : UInt64} (h : amount.toNat < 64) (value : Int64) :
    (value >>> amount.toInt64).toInt = value.toInt / 2 ^ amount.toNat := by
  have hpositive : amount.toBitVec.msb = false := by
    rw [BitVec.msb_eq_false_iff_two_mul_lt, UInt64.toNat_toBitVec]
    omega
  have hamount : (amount.toBitVec.smod 64).toNat = amount.toNat := by
    rw [BitVec.smod_eq, hpositive]
    exact Nat.mod_eq_of_lt h
  show (value.toBitVec.sshiftRight (amount.toBitVec.smod 64).toNat).toInt = _
  rw [BitVec.toInt_sshiftRight, hamount, Int.shiftRight_eq_div_pow, Int.natCast_pow]
  rfl

/-- **Shifting the sign bit up and down again gives the two's-complement reading.** -/
theorem signed_eq_bmod (w : Width) (word : UInt64) :
    w.signed word = (word.toNat : Int).bmod (2 ^ w.bits) := by
  have hspare : w.spare.toNat = 64 - w.bits := by cases w <;> rfl
  have hlt : w.spare.toNat < 64 := by cases w <;> decide
  have hup : (word <<< w.spare).toInt64.toInt =
      ((word.toNat * 2 ^ (64 - w.bits) : Nat) : Int).bmod (2 ^ 64) := by
    show ((word <<< w.spare).toBitVec).toInt = _
    rw [BitVec.toInt_eq_toNat_bmod, UInt64.toNat_toBitVec, UInt64.toNat_shiftLeft,
      Nat.mod_eq_of_lt hlt, Nat.shiftLeft_eq, hspare, Int.natCast_emod, Int.emod_bmod]
  rw [signed, signExtend, toInt_shiftRight hlt, hup, hspare, Int.bmod_def, Int.bmod_def]
  cases w <;> simp only [bits] <;> omega

theorem signed_wrap (w : Width) (word : UInt64) : w.signed (w.wrap word) = w.signed word := by
  simp only [signed_eq_bmod, toNat_wrap, Int.natCast_emod, Int.natCast_pow, Int.cast_ofNat_Int]
  have h : ((2 : Int) ^ w.bits) = ((2 ^ w.bits : Nat) : Int) := by simp
  rw [h, Int.emod_bmod]

end Width

end Mba
