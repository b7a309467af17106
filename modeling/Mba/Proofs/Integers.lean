import Mathlib.Data.Int.Bitwise
import Mba.Proofs.Program.Execution
import Mba.Proofs.Truncation

/-!
# Words as integers

At width `w` a word stands for every integer that has its low bits. One of them is the
two's-complement reading of these bits, `(w.low x).toInt`. An operator on words gives the word of
what the operator gives on integers, which have no bounds. So the result is exact up to a multiple
of `2 ^ w.bits`, and the bits above the width do not matter.

* `w.StandsFor x z` says that the word `x` stands for the integer `z`.
* `BinaryOp.onInts`, `UnaryOp.onInts` and `Comparison.onInts` are the operators on integers.

The operators of a template may be given any integers that the words stand for. A quotient, a
remainder, a right shift and a comparison ask for the two's-complement readings.

Results:
* `standsFor_iff`: a word that stands for an integer is, cut to the width, its remainder.
* `BinaryOp.standsFor_onWords`: an operator of a template on words and on integers.
* `BinaryOp.eval_onInts`, `UnaryOp.eval_onInts`, `Comparison.apply?_int`: all operators on words and
  on their readings.
* `exact_on_words`: the operators are exact modulo `2 ^ w.bits`, and a run compares readings.
-/

namespace Mba

/-! ## Bits of integers -/

theorem getElem_ofInt (n : Nat) (z : Int) (i : Nat) (hi : i < n) :
    (BitVec.ofInt n z)[i] = z.testBit i := by
  have hnat (m : Nat) : (BitVec.ofNat n m)[i] = m.testBit i := by
    rw [← BitVec.getLsbD_eq_getElem, BitVec.getLsbD_ofNat, decide_eq_true hi, Bool.true_and]
  cases z with
  | ofNat m => simp [Int.testBit, hnat]
  | negSucc m => simp [Int.testBit, hnat]

theorem ofInt_land (n : Nat) (l r : Int) :
    BitVec.ofInt n (Int.land l r) = BitVec.ofInt n l &&& BitVec.ofInt n r := by
  ext i hi
  simp only [BitVec.getElem_and, getElem_ofInt, Int.testBit_land]

theorem ofInt_lor (n : Nat) (l r : Int) :
    BitVec.ofInt n (Int.lor l r) = BitVec.ofInt n l ||| BitVec.ofInt n r := by
  ext i hi
  simp only [BitVec.getElem_or, getElem_ofInt, Int.testBit_lor]

theorem ofInt_xor (n : Nat) (l r : Int) :
    BitVec.ofInt n (Int.xor l r) = BitVec.ofInt n l ^^^ BitVec.ofInt n r := by
  ext i hi
  simp only [BitVec.getElem_xor, getElem_ofInt, Int.testBit_lxor]

theorem ofInt_sub (n : Nat) (l r : Int) :
    BitVec.ofInt n (l - r) = BitVec.ofInt n l - BitVec.ofInt n r := by
  rw [Int.sub_eq_add_neg, BitVec.ofInt_add, BitVec.ofInt_neg, BitVec.sub_eq_add_neg]

theorem ofInt_not (n : Nat) (z : Int) : BitVec.ofInt n (-z - 1) = ~~~BitVec.ofInt n z := by
  rw [ofInt_sub, BitVec.ofInt_neg, BitVec.not_eq_neg_add]
  rfl

/-! ## What a word stands for -/

namespace Width

/-- The low bits of the word are those of the integer. -/
def StandsFor (w : Width) (x : UInt64) (z : Int) : Prop :=
  w.low x = BitVec.ofInt w.bits z

variable {w : Width} {x : UInt64} {z : Int}

theorem signed_eq (w : Width) (x : UInt64) : w.signed x = (w.low x).toInt := by
  rw [← w.signed_wrap, BitVec.toInt_eq_toNat_bmod, toNat_low, signed_eq_bmod, toNat_wrap]

theorem standsFor_toInt (w : Width) (x : UInt64) : w.StandsFor x (w.low x).toInt :=
  BitVec.ofInt_toInt.symm

/-- **A word that stands for an integer is, cut to the width, its remainder.** -/
theorem standsFor_iff : w.StandsFor x z ↔ ((w.wrap x).toNat : Int) = z % 2 ^ w.bits := by
  have hpow : ((2 ^ w.bits : Nat) : Int) = 2 ^ w.bits := by simp
  have hpos : 0 ≤ z % ((2 ^ w.bits : Nat) : Int) := Int.emod_nonneg _ (by simp)
  rw [StandsFor, ← BitVec.toNat_inj, BitVec.toNat_ofInt, toNat_low, toNat_wrap, ← hpow]
  omega

theorem standsFor_iff_wrap : w.StandsFor x z ↔ w.wrap x = w.ofInt z := by
  rw [standsFor_iff, ← toNat_ofInt, Int.natCast_inj, UInt64.toNat_inj]

theorem standsFor_w64_iff : Width.w64.StandsFor x z ↔ x = Width.w64.ofInt z := by
  rw [standsFor_iff_wrap, wrap_w64]

theorem standsFor_ofInt (w : Width) (z : Int) : w.StandsFor (w.ofInt z) z :=
  standsFor_iff_wrap.2 (w.wrap_wrap _)

theorem ofInt_le_mask (w : Width) (z : Int) : w.ofInt z ≤ w.mask := by
  rw [ofInt, wrap, UInt64.le_iff_toNat_le, UInt64.toNat_and]
  exact Nat.and_le_right

theorem StandsFor.shiftLeft (h : w.StandsFor x z) {n : UInt64} (hn : n.toNat < 64) :
    w.StandsFor (x <<< n) (z * 2 ^ n.toNat) := by
  have hx := standsFor_iff.1 h
  rw [toNat_wrap, Int.natCast_emod, Int.natCast_pow, Int.cast_ofNat_Int] at hx
  rw [standsFor_iff, toNat_wrap, UInt64.toNat_shiftLeft, Nat.mod_eq_of_lt hn, Nat.shiftLeft_eq,
    Nat.mod_mod_of_dvd _ (Nat.pow_dvd_pow 2 w.bits_le)]
  push_cast
  rw [Int.mul_emod, hx, ← Int.mul_emod]

/-- A shift takes its amount modulo the number of bits. -/
theorem shiftAmount (w : Width) (x : UInt64) :
    (x % UInt64.ofNat w.bits).toNat = x.toNat % w.bits ∧
      (x % UInt64.ofNat w.bits).toNat < 64 := by
  have hbits : (UInt64.ofNat w.bits).toNat = w.bits := by cases w <;> rfl
  have hamount : (x % UInt64.ofNat w.bits).toNat = x.toNat % w.bits := by
    rw [UInt64.toNat_mod, hbits]
  exact ⟨hamount, hamount ▸ lt_of_lt_of_le (Nat.mod_lt _ (by cases w <;> decide)) w.bits_le⟩

/-- The number of bits divides the modulus, so a shift takes the same amount from a word and from
its reading. -/
theorem toInt_emod_bits (w : Width) (x : UInt64) :
    (w.low x).toInt % w.bits = ((x.toNat % w.bits : Nat) : Int) := by
  have hx := standsFor_iff.1 (w.standsFor_toInt x)
  rw [toNat_wrap] at hx
  cases w <;> simp only [bits] at hx ⊢ <;> omega

end Width

/-! ## Operators on integers -/

/-- A binary operator on integers. Bits of negative numbers are those of their two's complement
without end, and a shift takes its amount modulo the number of bits of `w`. -/
def BinaryOp.onInts (op : BinaryOp) (w : Width) (l r : Int) : Int :=
  match op with
  | .add => l + r
  | .sub => l - r
  | .mul => l * r
  | .div => l.tdiv r
  | .rem => l.tmod r
  | .and => Int.land l r
  | .or => Int.lor l r
  | .xor => Int.xor l r
  | .shl => l * 2 ^ (r % w.bits).toNat
  | .shr => l.fdiv (2 ^ (r % w.bits).toNat)

def UnaryOp.onInts : UnaryOp → Int → Int
  | .not, z => -z - 1
  | .neg, z => -z

def Comparison.onInts : Comparison → Int → Int → Bool
  | .eq, l, r => l = r
  | .ne, l, r => l ≠ r
  | .lt, l, r => l < r
  | .le, l, r => l ≤ r
  | .gt, l, r => l > r
  | .ge, l, r => l ≥ r

/-! ## Operators on words -/

open Template

/-- **An operator of a template keeps what the words stand for**, whichever integers these are. -/
theorem BinaryOp.standsFor_onWords {op : BinaryOp} (h : allowsBinary op = true) {w : Width}
    {x y : UInt64} {l r : Int} (hx : w.StandsFor x l) (hy : w.StandsFor y r) :
    w.StandsFor (op.onWords x y) (op.onInts w l r) := by
  unfold Width.StandsFor at *
  cases op <;> simp only [allowsBinary, Bool.false_eq_true] at h
  case add => rw [onWords, onInts, Width.low_add, BitVec.ofInt_add, hx, hy]
  case sub => rw [onWords, onInts, Width.low_sub, ofInt_sub, hx, hy]
  case mul => rw [onWords, onInts, Width.low_mul, BitVec.ofInt_mul, hx, hy]
  case and => rw [onWords, onInts, Width.low_and, ofInt_land, hx, hy]
  case or => rw [onWords, onInts, Width.low_or, ofInt_lor, hx, hy]
  case xor => rw [onWords, onInts, Width.low_xor, ofInt_xor, hx, hy]

theorem UnaryOp.standsFor_eval (op : UnaryOp) {w : Width} {x : UInt64} {z : Int}
    (h : w.StandsFor x z) : w.StandsFor (op.eval x w) (op.onInts z) := by
  unfold Width.StandsFor at *
  cases op with
  | not => rw [eval, onInts, Width.low_wrap, Width.low_not, ofInt_not, h]
  | neg => rw [eval, onInts, Width.low_wrap, Width.low_neg, BitVec.ofInt_neg, h]

/-- **A binary operator gives the word of its result on the readings.** -/
theorem BinaryOp.eval_onInts (op : BinaryOp) (x y : UInt64) (w : Width) :
    op.eval x y w =
      if (op = .div ∨ op = .rem) ∧ (w.low y).toInt = 0 then none
      else some (w.ofInt (op.onInts w (w.low x).toInt (w.low y).toInt)) := by
  have hx := w.standsFor_toInt x
  have hy := w.standsFor_toInt y
  by_cases hallows : allowsBinary op = true
  · have hop : ¬(op = .div ∨ op = .rem) := by
      rintro (rfl | rfl) <;> cases hallows
    rw [if_neg fun h => hop h.1, eval_eq_onWords hallows,
      Width.standsFor_iff_wrap.1 (standsFor_onWords hallows hx hy)]
  · cases op <;> simp only [allowsBinary, not_true] at hallows
    case div =>
      -- the wrap of the lowest number divided by `-1` is a multiple of the modulus
      simp only [eval, onInts, true_or, true_and, w.signExtend_eq_zero_iff, Width.wrap_toUInt64,
        Int64.toInt_div, Width.ofInt_bmod, Width.toInt_signExtend, Width.signed_eq]
    case rem =>
      simp only [eval, onInts, or_true, true_and, w.signExtend_eq_zero_iff, Width.wrap_toUInt64,
        Int64.toInt_mod, Width.toInt_signExtend, Width.signed_eq]
    case shl =>
      obtain ⟨hamount, hlt⟩ := w.shiftAmount y
      rw [if_neg (by simp), eval, Width.standsFor_iff_wrap.1 (hx.shiftLeft hlt), onInts,
        w.toInt_emod_bits, Int.toNat_natCast, hamount]
    case shr =>
      obtain ⟨hamount, hlt⟩ := w.shiftAmount y
      rw [if_neg (by simp), eval, Width.wrap_toUInt64, Width.toInt_shiftRight hlt,
        Width.toInt_signExtend, Width.signed_eq, onInts, w.toInt_emod_bits, Int.toNat_natCast,
        hamount, Int.fdiv_eq_ediv_of_nonneg _ (Int.pow_nonneg (by decide))]

/-- **A unary operator gives the word of its result on the reading.** -/
theorem UnaryOp.eval_onInts (op : UnaryOp) (x : UInt64) (w : Width) :
    op.eval x w = w.ofInt (op.onInts (w.low x).toInt) := by
  have hwrap : w.wrap (op.eval x w) = op.eval x w := by
    cases op <;> exact w.wrap_wrap _
  rw [← hwrap, Width.standsFor_iff_wrap.1 (op.standsFor_eval (w.standsFor_toInt x))]

theorem Comparison.holds_compare (test : Comparison) (l r : Int) :
    test.holds (some (Ord.compare l r)) = test.onInts l r := by
  have h : Ord.compare l r = if l < r then .lt else if l = r then .eq else .gt := rfl
  rw [h]
  cases test <;> grind [holds, onInts]

/-- **A comparison of two integers of one width compares their readings.** -/
theorem Comparison.apply?_int (test : Comparison) (w : Width) (x y : UInt64) :
    test.apply? (.int w x) (.int w y) = some (test.onInts (w.low x).toInt (w.low y).toInt) := by
  have happly : test.apply? (.int w x) (.int w y) =
      some (test.holds (some (Ord.compare (w.signed x) (w.signed y)))) := if_pos rfl
  rw [happly, holds_compare, Width.signed_eq, Width.signed_eq]

namespace Store

theorem operandValue_ok {d : Operation} {env : Env} {slot : Nat} {v : ValueId} {x : Scalar}
    (hv : d.operands[slot]? = some v) (hx : env.get? v.index = some x) :
    operandValue d env slot = .ok x := by
  rw [operandValue, hv]
  exact Env.get_eq_ok_iff.2 hx

/-- A run that meets a comparison of two integers of one width goes on with the comparison of their
readings. -/
theorem execute_compare {s : Store} {o : OpId} {d : Operation} {test : Comparison}
    {lhs rhs : ValueId} {env : Env} {w : Width} {x y : UInt64} (hd : s.op o = .ok d)
    (hop : d.opcode = .compare test) (hlhs : d.operands[0]? = some lhs)
    (hrhs : d.operands[1]? = some rhs) (hx : env.get? lhs.index = some (.int w x))
    (hy : env.get? rhs.index = some (.int w y)) (rest : List OpId) :
    s.execute (o :: rest) env = s.execute rest
      (bindResult d env (some (.bool (test.onInts (w.low x).toInt (w.low y).toInt)))) := by
  have hcompute : compute o d env =
      .ok (some (.bool (test.onInts (w.low x).toInt (w.low y).toInt))) := by
    simp only [compute, hop, operandValue_ok hlhs hx, operandValue_ok hrhs hy, bind, Except.bind,
      test.apply?_int]
  rw [execute_cons (op_eq_ok_iff.1 hd) (by rw [hop]; simp), hcompute]
  rfl

end Store

/-- **The operators on words are exact modulo `2 ^ w.bits`.** With `l` and `r` the two's-complement
readings of the low bits of two words, a binary operator has no result only where it divides by
zero, and else the remainder of its result on `l` and `r`; a unary operator has the remainder of its
result on `l`; a run that meets a comparison goes on with the comparison of `l` and `r`. So bits
above the width change no result, and no result has any. -/
theorem exact_on_words (w : Width) (x y : UInt64) :
    let l := (w.low x).toInt
    let r := (w.low y).toInt
    (∀ op : BinaryOp,
      (op.eval x y w).map (fun z => (z.toNat : Int)) =
          (if (op = .div ∨ op = .rem) ∧ r = 0 then none else some (op.onInts w l r % 2 ^ w.bits)) ∧
        op.eval (w.wrap x) (w.wrap y) w = op.eval x y w ∧
        ∀ z, op.eval x y w = some z → z ≤ w.mask) ∧
    (∀ op : UnaryOp,
      ((op.eval x w).toNat : Int) = op.onInts l % 2 ^ w.bits ∧
        op.eval (w.wrap x) w = op.eval x w ∧ op.eval x w ≤ w.mask) ∧
    ∀ (test : Comparison) (s : Store) (o : OpId) (d : Operation) (lhs rhs : ValueId) (env : Env),
      s.op o = .ok d → d.opcode = .compare test →
      d.operands[0]? = some lhs → d.operands[1]? = some rhs →
      env.get? lhs.index = some (.int w x) → env.get? rhs.index = some (.int w y) →
      ∀ rest, s.execute (o :: rest) env =
        s.execute rest (Store.bindResult d env (some (.bool (test.onInts l r)))) := by
  intro l r
  refine ⟨fun op => ?_, fun op => ?_, fun test s o d lhs rhs env hd hop hlhs hrhs hx hy rest =>
    Store.execute_compare hd hop hlhs hrhs hx hy rest⟩
  · refine ⟨?_, ?_, ?_⟩
    · rw [op.eval_onInts]
      split
      · rfl
      · rw [Option.map_some, Width.toNat_ofInt]
    · simp only [op.eval_onInts, Width.low_wrap]
    · intro z hz
      rw [op.eval_onInts, Option.ite_none_left_eq_some, Option.some.injEq] at hz
      exact hz.2 ▸ w.ofInt_le_mask _
  · refine ⟨?_, ?_, ?_⟩
    · rw [op.eval_onInts, Width.toNat_ofInt]
    · simp only [op.eval_onInts, Width.low_wrap]
    · rw [op.eval_onInts]
      exact w.ofInt_le_mask _

/-- A store that holds the program that tells whether one byte is above another. -/
def aboveStore : Store where
  ops := #[⟨.compare .gt, [⟨0⟩, ⟨1⟩], some .bool, some ⟨2⟩, some ⟨0⟩⟩,
    ⟨.ret, [⟨2⟩], none, none, some ⟨0⟩⟩]
  values := #[⟨.argument ⟨0⟩ 0, .int .w8⟩, ⟨.argument ⟨0⟩ 1, .int .w8⟩, ⟨.result ⟨0⟩, .bool⟩]
  blocks := #[⟨[.int .w8, .int .w8], [⟨0⟩, ⟨1⟩], [⟨0⟩, ⟨1⟩]⟩]
  chains := ⟨#[some [⟨⟨0⟩, 0⟩], some [⟨⟨0⟩, 1⟩], some [⟨⟨1⟩, 0⟩]]⟩

/-- The bytes are `-1` and `-128`, both with bits above the width. -/
theorem exact_on_words_above :
    let env := (Env.set Table.empty ⟨0⟩ (.int .w8 0x1ff)).set ⟨1⟩ (.int .w8 0x380)
    BinaryOp.div.eval 0x380 0x1ff .w8 = some 0x80 ∧
      aboveStore.execute [⟨0⟩, ⟨1⟩] env = .ok [.bool true] := by
  intro env
  obtain ⟨hbinary, -, -⟩ := exact_on_words .w8 0x380 0x1ff
  obtain ⟨-, -, hcompare⟩ := exact_on_words .w8 0x1ff 0x380
  constructor
  · have h := (hbinary .div).1
    obtain ⟨z, hz, hvalue⟩ := Option.map_eq_some_iff.1 (h.trans (if_neg (by decide)))
    rw [hz, Option.some.injEq, ← UInt64.toNat_inj, ← Int.natCast_inj, hvalue]
    rfl
  · rw [hcompare .gt aboveStore ⟨0⟩ _ ⟨0⟩ ⟨1⟩ env rfl rfl rfl rfl rfl rfl [⟨1⟩]]
    rfl

end Mba
