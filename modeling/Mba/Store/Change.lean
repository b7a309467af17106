import Mba.Store.Basic

/-!
# Changes of a store

The elementary changes: creating a block or an operation, placing an operation and taking it out
again, redirecting every use of a value, and removing an operation. Each keeps the use chains in
step with the operands, and each faults where its caller breaks a promise.

Results:
* `uses_setUses`: a chain that is written is seen at its own value and nowhere else.
-/

namespace Mba.Store

/-- The store with the chain of `v` set. -/
def setUses (s : Store) (v : ValueId) (chain : List Use) : Store :=
  { s with chains := s.chains.insert v.index chain }

/-- **A chain that is written is seen at its own value and nowhere else.** -/
theorem uses_setUses (s : Store) (v w : ValueId) (chain : List Use) :
    (s.setUses v chain).uses w = if v = w then chain else s.uses w := by
  have h : v = w ↔ v.index = w.index := by
    cases v; cases w; simp
  simp only [setUses, uses, Table.get?_insert, h]
  split <;> rfl

/-- A new operation, before it has a number. -/
structure Draft where
  opcode : Opcode
  operands : List ValueId
  resultTy? : Option Ty
  /-- The block that the operation claims to be placed in; a new operation must not claim one. -/
  parent? : Option BlockId := none
  deriving DecidableEq, Repr

/-- Creates a block with arguments of the given types, and with the given operations listed. -/
def createBlock (s : Store) (argTys : List Ty) (ops : List OpId) : BlockId × Store :=
  let b : BlockId := ⟨s.blocks.size⟩
  let first := s.values.size
  let args := (List.range argTys.length).map fun i => (⟨first + i⟩ : ValueId)
  let values := argTys.zipIdx.map fun (ty, i) => (⟨.argument b i, ty⟩ : Value)
  (b, { s with
    blocks := s.blocks.push ⟨argTys, args, ops⟩
    values := s.values ++ values })

/-- The store in which slot `slot` of `user` is added at the end of the chain of `v`. -/
def addUse (s : Store) (v : ValueId) (use : Use) : Store :=
  s.setUses v (s.uses v ++ [use])

/-- Creates an operation and the value it defines, and enters its operands in the use chains. The
operation is not placed in any block. -/
def createOp (s : Store) (draft : Draft) : Except Fault (OpId × Store) :=
  if draft.parent?.isSome then .error .createLinked
  else
    let o : OpId := ⟨s.ops.size⟩
    let v : ValueId := ⟨s.values.size⟩
    let s := draft.operands.zipIdx.foldl (fun s (operand, i) => s.addUse operand ⟨o, i⟩) s
    let op : Operation :=
      ⟨draft.opcode, draft.operands, draft.resultTy?, draft.resultTy?.map fun _ => v, none⟩
    .ok (o, { s with
      ops := s.ops.push op
      values := match draft.resultTy? with
        | some ty => s.values.push ⟨.result o, ty⟩
        | none => s.values })

/-- The store with the parent of an operation set. -/
def setParent (s : Store) (o : OpId) (parent? : Option BlockId) : Store :=
  { s with ops := s.ops.modify o.index fun d => { d with parent? } }

/-- The store with the operations of a block set. -/
def setBlockOps (s : Store) (b : BlockId) (ops : List OpId) : Store :=
  { s with blocks := s.blocks.modify b.index fun d => { d with ops } }

/-- Places an operation at the end of a block. -/
def pushOp (s : Store) (b : BlockId) (o : OpId) : Except Fault Store := do
  let d ← s.op o
  if d.parent?.isSome then .error (.pushLinked o)
  else
    let target ← s.block b
    .ok ((s.setParent o (some b)).setBlockOps b (target.ops ++ [o]))

/-- Places an operation directly before another one of the block. -/
def insertOpBefore (s : Store) (b : BlockId) (before o : OpId) : Except Fault Store := do
  let d ← s.op o
  if d.parent?.isSome then .error (.insertLinked o)
  else
    let target ← s.block b
    match target.ops.idxOf? before with
    | none => .error (.insertAnchor before b)
    | some place => .ok ((s.setBlockOps b (target.ops.insertIdx place o)).setParent o (some b))

/-- Takes an operation out of a block. Its operands and its result stay as they are. -/
def unlinkOp (s : Store) (b : BlockId) (o : OpId) : Except Fault Store := do
  let target ← s.block b
  let d ← s.op o
  let s := s.setBlockOps b (target.ops.filter (· != o))
  .ok (if d.parent? = some b then s.setParent o none else s)

/-- The store with the operands of an operation taken away, and its slots out of the use chains. -/
def dropOperands (s : Store) (o : OpId) (operands : List ValueId) : Store :=
  let s := operands.zipIdx.foldl
    (fun s (operand, i) => s.setUses operand ((s.uses operand).filter (· != ⟨o, i⟩))) s
  { s with ops := s.ops.modify o.index fun d => { d with operands := [] } }

/-- Removes an operation: takes its operands away. The operation must not be placed and its result
must not be read. -/
def removeOp (s : Store) (o : OpId) : Except Fault Store := do
  let d ← s.op o
  if d.parent?.isSome then .error (.removeLinked o)
  else
    match d.result?.filter fun result => s.uses result ≠ [] with
    | some result => .error (.removeUsed result (s.uses result).length)
    | none => .ok (s.dropOperands o d.operands)

/-- The operations with one slot, which must read `old`, made to read `new`. -/
def redirect (old new : ValueId) (ops : Array Operation) (use : Use) :
    Except Fault (Array Operation) :=
  match ops[use.user.index]? with
  | none => .error .dangling
  | some d =>
    if d.operands[use.slot]? = some old then
      .ok (ops.modify use.user.index fun d =>
        { d with operands := d.operands.set use.slot new })
    else .error .dangling

/-- Makes every slot that reads `old` read `new`, and moves the chain of `old` to the end of that of
`new`. Gives the number of slots. -/
def replaceAllUses (s : Store) (old new : ValueId) : Except Fault (Nat × Store) := do
  if old = new then .ok (0, s)
  else
    let moved := s.uses old
    let s := s.setUses old []
    let s := s.setUses new (s.uses new ++ moved)
    let ops ← moved.foldlM (redirect old new) s.ops
    .ok (moved.length, { s with ops })

end Mba.Store
