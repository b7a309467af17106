import Mba.Store.Basic

/-!
# Eligible operations

An operation is eligible for mutation when it applies an operator for which identities are known to
two integers of one type, with a result of that type. The identities hold on integers of fixed width
only.
-/

namespace Mba

/-- Why an operation is not eligible. -/
inductive Ineligibility
  /-- The opcode, by its mnemonic, is no binary operator, or the operands are not two. -/
  | notBinary (opcode : String)
  | unsupportedOperator (op : BinaryOp)
  | operandTypes (lhs rhs : Ty)
  /-- The result type, by its name. -/
  | resultType (found : String)
  deriving DecidableEq, Repr

def Ineligibility.message : Ineligibility → String
  | .notBinary opcode => s!"`{opcode}` is not a binary operation"
  | .unsupportedOperator op => s!"`{op.mnemonic}` has no MBA templates"
  | .operandTypes lhs rhs =>
    s!"operands are {lhs.name} and {rhs.name}, expected one integer type"
  | .resultType found => s!"result type {found} differs from the operand type"

/-- Whether identities are known for the operator. -/
def BinaryOp.isSupported : BinaryOp → Bool
  | .sub | .xor | .add | .and | .or => true
  | .mul | .div | .rem | .shl | .shr => false

namespace Store

/-- **The operator of an eligible operation**, or why the operation is not eligible. -/
def eligibility (s : Store) (o : OpId) : Attempt Ineligibility BinaryOp := do
  let d ← s.op o
  match d.opcode with
  | .binary op =>
    if !op.isSupported then Attempt.fail (.unsupportedOperator op)
    else
      match d.operands with
      | [lhs, rhs] =>
        let lhsTy ← s.valueTy lhs
        let rhsTy ← s.valueTy rhs
        if lhsTy ≠ rhsTy || !lhsTy.isInt then Attempt.fail (.operandTypes lhsTy rhsTy)
        else if d.resultTy? ≠ some lhsTy then
          Attempt.fail (.resultType ((d.resultTy?.map Ty.name).getD "none"))
        else .ok op
      | _ => Attempt.fail (.notBinary d.opcode.mnemonic)
  | opcode => Attempt.fail (.notBinary opcode.mnemonic)

/-- Whether an operation is eligible. -/
def isEligible (s : Store) (o : OpId) : Except Fault Bool :=
  (s.eligibility o).answer.map Except.isOk

end Store

end Mba
