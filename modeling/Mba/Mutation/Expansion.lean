import Mba.Catalog.Basic
import Mba.Mutation.Error
import Mba.Random.Source

/-!
# Expanding an operation

An expansion puts the instructions of a template directly before an eligible operation, for the
operands of that operation. The operation itself stays, and so does every use of its result; see
`Store.rebind` for the second half of a mutation.
-/

namespace Mba

/-- A template put in front of an operation. -/
structure Expansion where
  /-- The operation that the expansion computes the result of. -/
  target : OpId
  operator : BinaryOp
  /-- The place of the template among those of its operator. -/
  index : Nat
  template : Template
  /-- The value that equals the result of the operation. -/
  result : ValueId
  /-- The new operations, in program order. -/
  emitted : List OpId
  deriving DecidableEq, Repr

namespace Template

/-- The value of an operand; a literal takes an operation of its own. -/
def Operand.emit (x y : ValueId) (ty : Ty) (temps : List ValueId) :
    Operand → Edit Builder BuildError ValueId
  | .x => pure x
  | .y => pure y
  | .lit value => Builder.int ty value
  | .tmp step => Edit.read fun _ =>
    match temps[step]? with
    | some v => .ok v
    | none => .error (.fault .dangling)

/-- Emits the operations of a step, those of its literals first. -/
def Step.emit (x y : ValueId) (ty : Ty) (temps : List ValueId) :
    Step → Edit Builder BuildError ValueId
  | .unary op a => do
    let a ← a.emit x y ty temps
    Builder.unary op a
  | .binary op a b => do
    let a ← a.emit x y ty temps
    let b ← b.emit x y ty temps
    Builder.binary op a b

/-- Emits steps in order, and gives the results of all steps, those so far among them. -/
def emitSteps (x y : ValueId) (ty : Ty) : List Step → List ValueId →
    Edit Builder BuildError (List ValueId)
  | [], temps => pure temps
  | step :: rest, temps => do
    let v ← step.emit x y ty temps
    emitSteps x y ty rest (temps ++ [v])

/-- Emits a template for two values of the type `ty`, which must be defined before the place. -/
def emit (t : Template) (x y : ValueId) (ty : Ty) : Edit Builder BuildError ValueId := do
  let x ← Edit.read fun b => b.adopt x
  let y ← Edit.read fun b => b.adopt y
  let temps ← emitSteps x y ty t.steps []
  return temps.getLast?.getD x

end Template

namespace Catalog

/-- The template of an operator at an index. -/
def template (c : Catalog) (op : BinaryOp) (index : Nat) : Attempt MutationError Template :=
  let templates := c.templates op
  if templates.isEmpty then Attempt.fail (.missingTemplates op)
  else
    match templates[index]? with
    | none => Attempt.fail (.templateIndex op index templates.length)
    | some t =>
      match t.shapeError? with
      | some e => Attempt.fail (.template e)
      | none => .ok t

end Catalog

namespace Store

/-- The operator of an operation to mutate. -/
def operatorOf (s : Store) (o : OpId) : Attempt MutationError BinaryOp :=
  (s.eligibility o).mapError fun
    | .fault f => .fault f
    | .error reason => .error (.ineligible o reason)

/-- The operands of an operation to mutate, and their type. -/
def operandPair (s : Store) (o : OpId) : Attempt MutationError (ValueId × ValueId × Ty) := do
  let d ← s.op o
  match d.operands with
  | [x, y] => return (x, y, ← s.valueTy x)
  | _ => Attempt.fail (.ineligible o (.notBinary d.opcode.mnemonic))

/-- The place before an operation to mutate. -/
def placeBefore (s : Store) (o : OpId) : Attempt MutationError InsertPoint :=
  (Builder.pointBefore s o).mapError fun
    | .fault f => .fault f
    | .error e => .error (.build e)

/-- **Puts the template at an index of the catalog in front of an operation.** -/
def expand (c : Catalog) (o : OpId) (index : Nat) : Edit Store MutationError Expansion := do
  let operator ← Edit.read (operatorOf · o)
  let template ← Edit.read fun _ => c.template operator index
  let (x, y, ty) ← Edit.read (operandPair · o)
  let point ← Edit.read (placeBefore · o)
  let (result, emitted) ← (Store.build point (template.emit x y ty)).mapError .build
  return ⟨o, operator, index, template, result, emitted⟩

end Store

/-! ## With a random template -/

/-- A store and the random source that mutations draw from. -/
structure Bench (γ : Type) where
  store : Store
  source : γ

namespace Bench

variable {γ ε α : Type}

/-- An edit of the store, which draws nothing. -/
def onStore (m : Edit Store ε α) : Edit (Bench γ) ε α := fun ⟨store, source⟩ =>
  match m store with
  | .done a store => .done a ⟨store, source⟩
  | .failed e store => .failed e ⟨store, source⟩
  | .fault f => .fault f

/-- A draw from the source. -/
def drawing (draw : γ → α × γ) : Edit (Bench γ) ε α := fun ⟨store, source⟩ =>
  let (a, source) := draw source
  .done a ⟨store, source⟩

/-- Puts a template of the catalog, drawn at random, in front of an operation. -/
def expand [RandomSource γ] (c : Catalog) (o : OpId) :
    Edit (Bench γ) MutationError Expansion := do
  let operator ← Edit.read fun b => b.store.operatorOf o
  let count := (c.templates operator).length
  if count = 0 then Edit.fail (.missingTemplates operator)
  else
    let index ← drawing (RandomSource.below count)
    onStore (Store.expand c o index)

end Bench

end Mba
