import Mba.Double.Basic
import Mba.Program.Basic

/-!
# Builders

A builder creates typed operations at one place of a block and records what it emitted. Every
operator checks the types of its operands before anything is created, so a call that fails changes
nothing. Whether an operand is defined before the place is checked by `adopt` alone.
-/

namespace Mba

/-- What is wrong with the operands of a call. -/
inductive OperandDefect
  /-- An integer constant of a type that is no integer. -/
  | constant (ty : Ty)
  | unary (op : UnaryOp) (ty : Ty)
  | binary (op : BinaryOp) (ty : Ty)
  /-- Two operands of different types. -/
  | mixed (opcode : Opcode) (lhs rhs : Ty)
  deriving DecidableEq, Repr

def OperandDefect.message : OperandDefect → String
  | .constant ty => s!"`const` expects an integer result type operands, found {ty.name}"
  | .unary op ty => s!"`{op.mnemonic}` expects a numeric operands, found {ty.name}"
  | .binary op ty =>
    let expected := if op.isBitwise then "integer" else "numeric"
    s!"`{op.mnemonic}` expects {expected} operands, found {ty.name}"
  | .mixed opcode lhs rhs =>
    s!"`{opcode.mnemonic}` expects two same-typed operands, found {lhs.name} and {rhs.name}"

/-- Why a call of a builder fails. -/
inductive BuildError
  /-- The value is not defined before the place. -/
  | notVisible (value : ValueId)
  /-- The operation to build before is not placed in a block. -/
  | detached (op : OpId)
  | operandTypes (defect : OperandDefect)
  deriving DecidableEq, Repr

def BuildError.message : BuildError → String
  | .notVisible v => s!"value {v} is not defined before the insertion point"
  | .detached o => s!"operation {o} is not attached to a block"
  | .operandTypes defect => defect.message

/-- A place for new operations. -/
inductive InsertPoint
  | atEnd (block : BlockId)
  | before (block : BlockId) (op : OpId)
  deriving DecidableEq, Repr

def InsertPoint.block : InsertPoint → BlockId
  | .atEnd b | .before b _ => b

/-- The types that a unary operator takes. -/
def UnaryOp.accepts : UnaryOp → Ty → Bool
  | .not, ty => ty.isInt
  | .neg, ty => ty.isNumeric

/-- The types that a binary operator takes. -/
def BinaryOp.accepts (op : BinaryOp) (ty : Ty) : Bool :=
  if op.isBitwise then ty.isInt else ty.isNumeric

structure Builder where
  store : Store
  point : InsertPoint
  /-- The operations emitted so far, in order. -/
  emitted : List OpId

namespace Builder

/-- A builder that has emitted nothing yet. -/
def start (s : Store) (point : InsertPoint) : Builder := ⟨s, point, []⟩

/-- The place directly before a placed operation. -/
def pointBefore (s : Store) (o : OpId) : Attempt BuildError InsertPoint := do
  let d ← s.op o
  match d.parent? with
  | some b => .ok (.before b o)
  | none => Attempt.fail (.detached o)

/-- The result of the operation emitted last. -/
def lastValue? (b : Builder) : Option ValueId :=
  b.emitted.getLast?.bind b.store.result?

/-- Whether a value is defined before the place: it is an argument of the block, or the result of an
operation placed in the block, before the place. -/
def isVisible (b : Builder) (v : ValueId) : Except Fault Bool := do
  if !b.store.isAllocated v then return false
  let block := b.point.block
  match (← b.store.value v).origin with
  | .argument home _ => return home = block
  | .result definer =>
    if (← b.store.op definer).parent? ≠ some block then return false
    match ← b.store.position? block definer, b.point with
    | none, _ => return false
    | some _, .atEnd _ => return true
    | some place, .before _ anchor =>
      match ← b.store.position? block anchor with
      | none => return false
      | some limit => return place < limit

/-- Accepts a value as an operand of the operations to come. -/
def adopt (b : Builder) (v : ValueId) : Attempt BuildError ValueId := do
  if ← b.isVisible v then .ok v else Attempt.fail (.notVisible v)

/-! ## Emitting operations -/

/-- Places an operation at the builder's place. -/
def place (point : InsertPoint) (s : Store) (o : OpId) : Except Fault Store :=
  match point with
  | .atEnd block => s.pushOp block o
  | .before block anchor => s.insertOpBefore block anchor o

/-- Creates an operation at the place. -/
def emit (draft : Store.Draft) : Edit Builder BuildError OpId :=
  .step fun ⟨s, point, emitted⟩ => do
    let (o, s) ← s.createOp draft
    let s ← place point s o
    return (o, ⟨s, point, emitted ++ [o]⟩)

/-- Creates an operation with a result of type `ty`, and gives the result. -/
def emitValue (opcode : Opcode) (operands : List ValueId) (ty : Ty) :
    Edit Builder BuildError ValueId := do
  let o ← emit ⟨opcode, operands, some ty, none⟩
  Edit.read fun b =>
    match b.store.result? o with
    | some v => .ok v
    | none => .error (.fault .dangling)

def typeOf (v : ValueId) : Edit Builder BuildError Ty :=
  .read fun b => b.store.valueTy v

/-- Stops unless the operands are in order. -/
def require (holds : Bool) (defect : OperandDefect) : Edit Builder BuildError Unit :=
  if holds then pure () else .fail (.operandTypes defect)

/-- An integer constant of an integer type, wrapped to its width. -/
def int (ty : Ty) (value : Int) : Edit Builder BuildError ValueId :=
  match ty.width? with
  | some w => emitValue (.const (w.ofInt value)) [] ty
  | none => .fail (.operandTypes (.constant ty))

def double (x : Double) : Edit Builder BuildError ValueId :=
  emitValue (.fconst x.bits) [] .double

def unary (op : UnaryOp) (operand : ValueId) : Edit Builder BuildError ValueId := do
  let ty ← typeOf operand
  require (op.accepts ty) (.unary op ty)
  emitValue (.unary op) [operand] ty

/-- The common type of two operands. -/
def commonType (opcode : Opcode) (lhs rhs : ValueId) : Edit Builder BuildError Ty := do
  let lhsTy ← typeOf lhs
  let rhsTy ← typeOf rhs
  require (lhsTy = rhsTy) (.mixed opcode lhsTy rhsTy)
  return lhsTy

def binary (op : BinaryOp) (lhs rhs : ValueId) : Edit Builder BuildError ValueId := do
  let ty ← commonType (.binary op) lhs rhs
  require (op.accepts ty) (.binary op ty)
  emitValue (.binary op) [lhs, rhs] ty

def compare (test : Comparison) (lhs rhs : ValueId) : Edit Builder BuildError ValueId := do
  let _ ← commonType (.compare test) lhs rhs
  emitValue (.compare test) [lhs, rhs] .bool

/-- The end of a program, with its outputs. -/
def ret (outputs : List ValueId) : Edit Builder BuildError OpId :=
  emit ⟨.ret, outputs, none, none⟩

end Builder

/-- Runs a builder at a place of a store, and gives what it emitted along with its answer. -/
def Store.build {α : Type} (point : InsertPoint) (calls : Edit Builder BuildError α) :
    Edit Store BuildError (α × List OpId) := fun s =>
  match calls (Builder.start s point) with
  | .done a b => .done (a, b.emitted) b.store
  | .failed e b => .failed e b.store
  | .fault f => .fault f

end Mba
