import Mba.Edit
import Mba.Opcode
import Mba.Table
import Mba.Ty

/-!
# Stores

A store owns the operations, values and blocks of any number of programs. It keeps, for every value,
the *use chain*: the operand slots that read it, in the order in which they came to read it. A chain
may be kept for a number that no value has yet.

An operation is *placed* when it has a parent block. An operation that was taken out of its block or
removed keeps its number, and so does its result.
-/

namespace Mba

/-- Slot `slot` among the operands of `user`. -/
structure Use where
  user : OpId
  slot : Nat
  deriving DecidableEq, Repr

/-- What defines a value. -/
inductive Origin
  /-- The value is the result of an operation. -/
  | result (op : OpId)
  /-- The value is an argument of a block. -/
  | argument (block : BlockId) (index : Nat)
  deriving DecidableEq, Repr

instance : ToString Origin where
  toString
    | .result op => s!"{op}#0"
    | .argument block index => s!"{block}#{index}"

structure Operation where
  opcode : Opcode
  operands : List ValueId
  /-- The type of the result; an operation without one defines no value. -/
  resultTy? : Option Ty
  result? : Option ValueId
  /-- The block in which the operation is placed. -/
  parent? : Option BlockId
  deriving DecidableEq, Repr

structure Value where
  origin : Origin
  ty : Ty
  deriving DecidableEq, Repr

structure Block where
  argTys : List Ty
  args : List ValueId
  /-- The operations in program order. -/
  ops : List OpId
  deriving DecidableEq, Repr

structure Store where
  ops : Array Operation
  values : Array Value
  blocks : Array Block
  chains : Table (List Use)

namespace Store

/-- The store without entries. -/
def empty : Store := ⟨#[], #[], #[], Table.empty⟩

/-- The entry of an operation. -/
def op (s : Store) (o : OpId) : Except Fault Operation :=
  match s.ops[o.index]? with
  | some d => .ok d
  | none => .error .dangling

/-- The entry of a value. -/
def value (s : Store) (v : ValueId) : Except Fault Value :=
  match s.values[v.index]? with
  | some d => .ok d
  | none => .error .dangling

/-- The entry of a block. -/
def block (s : Store) (b : BlockId) : Except Fault Block :=
  match s.blocks[b.index]? with
  | some d => .ok d
  | none => .error .dangling

/-- Whether the number belongs to a value. -/
def isAllocated (s : Store) (v : ValueId) : Bool :=
  v.index < s.values.size

/-- The type of a value. -/
def valueTy (s : Store) (v : ValueId) : Except Fault Ty :=
  (s.value v).map (·.ty)

/-- The value that an operation defines. -/
def result? (s : Store) (o : OpId) : Option ValueId :=
  s.ops[o.index]?.bind (·.result?)

/-- The arguments of a block; a block that does not exist has none. -/
def args (s : Store) (b : BlockId) : List ValueId :=
  match s.blocks[b.index]? with
  | some d => d.args
  | none => []

/-- The use chain kept for a number. -/
def uses (s : Store) (v : ValueId) : List Use :=
  (s.chains.get? v.index).getD []

/-- The place of an operation in a block. -/
def position? (s : Store) (b : BlockId) (o : OpId) : Except Fault (Option Nat) :=
  (s.block b).map fun d => d.ops.idxOf? o

/-- Whether the operation is placed in a block. -/
def isPlaced (s : Store) (o : OpId) : Except Fault Bool :=
  (s.op o).map fun d => d.parent?.isSome

end Store

end Mba
