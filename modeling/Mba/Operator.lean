import Mba.Width

/-!
# Operators on integers

The binary, unary and comparison operators, their mnemonics and their meaning on words of a given
width. All arithmetic is modulo `2 ^ w.bits`; division, remainder and the right shift read their
operands as signed numbers.

Results:
* `BinaryOp.ofMnemonic?_mnemonic`, `UnaryOp.ofMnemonic?_mnemonic`,
  `Comparison.ofMnemonic?_mnemonic`: a mnemonic names its operator and no other.
* `BinaryOp.eval_eq_none_iff`: only a division or a remainder by zero has no result.
-/

namespace Mba

/-- Arithmetic and bitwise operators on two words. -/
inductive BinaryOp
  | add
  | sub
  | mul
  | div
  | rem
  | and
  | or
  | xor
  | shl
  | shr
  deriving DecidableEq, Repr

namespace BinaryOp

/-- Every binary operator, in declaration order. -/
def all : List BinaryOp := [.add, .sub, .mul, .div, .rem, .and, .or, .xor, .shl, .shr]

/-- The name of the operator in a program text. -/
def mnemonic : BinaryOp → String
  | .add => "add"
  | .sub => "sub"
  | .mul => "mul"
  | .div => "div"
  | .rem => "rem"
  | .and => "and"
  | .or => "or"
  | .xor => "xor"
  | .shl => "shl"
  | .shr => "shr"

/-- The operator between its operands, as a formula writes it. -/
def symbol : BinaryOp → String
  | .add => "+"
  | .sub => "-"
  | .mul => "*"
  | .div => "/"
  | .rem => "%"
  | .and => "&"
  | .or => "|"
  | .xor => "^"
  | .shl => "<<"
  | .shr => ">>"

/-- The operator with the given mnemonic. -/
def ofMnemonic? (name : String) : Option BinaryOp :=
  all.find? fun op => op.mnemonic == name

/-- Whether the operator is defined on integers only. -/
def isBitwise : BinaryOp → Bool
  | .and | .or | .xor | .shl | .shr => true
  | .add | .sub | .mul | .div | .rem => false

/--
The operator on two words of width `w`; there is no result when the divisor is zero. Division and
remainder truncate toward zero and wrap where the lowest number is divided by `-1`, a shift takes
its amount modulo the width, and the right shift copies the sign bit.
-/
def eval (op : BinaryOp) (lhs rhs : UInt64) (w : Width) : Option UInt64 :=
  match op with
  | .add => some (w.wrap (lhs + rhs))
  | .sub => some (w.wrap (lhs - rhs))
  | .mul => some (w.wrap (lhs * rhs))
  | .div =>
    if w.signExtend rhs = 0 then none
    else some (w.wrap (w.signExtend lhs / w.signExtend rhs).toUInt64)
  | .rem =>
    if w.signExtend rhs = 0 then none
    else some (w.wrap (w.signExtend lhs % w.signExtend rhs).toUInt64)
  | .and => some (w.wrap (lhs &&& rhs))
  | .or => some (w.wrap (lhs ||| rhs))
  | .xor => some (w.wrap (lhs ^^^ rhs))
  | .shl => some (w.wrap (lhs <<< (rhs % UInt64.ofNat w.bits)))
  | .shr =>
    let amount := rhs % UInt64.ofNat w.bits
    some (w.wrap (w.signExtend lhs >>> amount.toInt64).toUInt64)

theorem ofMnemonic?_mnemonic (op : BinaryOp) : ofMnemonic? op.mnemonic = some op := by
  cases op <;> decide

/-- **Only a division or a remainder by zero has no result.** -/
theorem eval_eq_none_iff (op : BinaryOp) (lhs rhs : UInt64) (w : Width) :
    op.eval lhs rhs w = none ↔ (op = .div ∨ op = .rem) ∧ w.signed rhs = 0 := by
  rw [← w.signExtend_eq_zero_iff]
  cases op <;> simp [eval]

end BinaryOp

/-- Operators on one word. -/
inductive UnaryOp
  | not
  | neg
  deriving DecidableEq, Repr

namespace UnaryOp

/-- Every unary operator, in declaration order. -/
def all : List UnaryOp := [.not, .neg]

/-- The name of the operator in a program text. -/
def mnemonic : UnaryOp → String
  | .not => "not"
  | .neg => "neg"

/-- The operator with the given mnemonic. -/
def ofMnemonic? (name : String) : Option UnaryOp :=
  all.find? fun op => op.mnemonic == name

/-- The operator on a word of width `w`. -/
def eval (op : UnaryOp) (operand : UInt64) (w : Width) : UInt64 :=
  match op with
  | .not => w.wrap (~~~operand)
  | .neg => w.wrap (-operand)

theorem ofMnemonic?_mnemonic (op : UnaryOp) : ofMnemonic? op.mnemonic = some op := by
  cases op <;> decide

end UnaryOp

/-- The six order tests. -/
inductive Comparison
  | eq
  | ne
  | lt
  | le
  | gt
  | ge
  deriving DecidableEq, Repr

namespace Comparison

/-- Every comparison, in declaration order. -/
def all : List Comparison := [.eq, .ne, .lt, .le, .gt, .ge]

/-- The name of the comparison in a program text. -/
def mnemonic : Comparison → String
  | .eq => "cmp.eq"
  | .ne => "cmp.ne"
  | .lt => "cmp.lt"
  | .le => "cmp.le"
  | .gt => "cmp.gt"
  | .ge => "cmp.ge"

/-- The comparison with the given mnemonic. -/
def ofMnemonic? (name : String) : Option Comparison :=
  all.find? fun op => op.mnemonic == name

/--
Whether two values in the given order pass the test. `none` stands for values that have no order,
as a float that is not a number has with any other: those pass `ne` and nothing else.
-/
def holds : Comparison → Option Ordering → Bool
  | .eq, order => order == some .eq
  | .ne, order => order != some .eq
  | .lt, order => order == some .lt
  | .le, order => order == some .lt || order == some .eq
  | .gt, order => order == some .gt
  | .ge, order => order == some .gt || order == some .eq

theorem ofMnemonic?_mnemonic (op : Comparison) : ofMnemonic? op.mnemonic = some op := by
  cases op <;> decide

end Comparison

end Mba
