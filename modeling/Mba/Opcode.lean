import Mba.Operator

/-!
# Opcodes

What an operation computes, apart from its operands.
-/

namespace Mba

/-- The kind of an operation. -/
inductive Opcode
  /-- An integer constant, kept as a word. -/
  | const (bits : UInt64)
  /-- A double constant, kept as its bit pattern. -/
  | fconst (bits : UInt64)
  | unary (op : UnaryOp)
  | binary (op : BinaryOp)
  | compare (test : Comparison)
  /-- The end of a program; its operands are the outputs. -/
  | ret
  deriving DecidableEq, Repr

namespace Opcode

/-- The name of the opcode in a program text. -/
def mnemonic : Opcode → String
  | .const _ => "const"
  | .fconst _ => "fconst"
  | .unary op => op.mnemonic
  | .binary op => op.mnemonic
  | .compare test => test.mnemonic
  | .ret => "return"

/-- How many operands the opcode takes; `ret` takes any number. -/
def arity? : Opcode → Option Nat
  | .const _ | .fconst _ => some 0
  | .unary _ => some 1
  | .binary _ | .compare _ => some 2
  | .ret => none

/-- Whether an operation of this kind defines a value. -/
def hasResult : Opcode → Bool
  | .ret => false
  | .const _ | .fconst _ | .unary _ | .binary _ | .compare _ => true

end Opcode

end Mba
