import Mba.Builder
import Mba.Double.Arithmetic
import Mba.Scalar

/-!
# Running a program

The operations are executed in order on an environment that gives values to the inputs and to the
results so far. The first `ret` ends the run with the values of its operands. Types are checked as
the values come along, so any program of any store can be run.
-/

namespace Mba

/-- Why a run ends without outputs. -/
inductive EvalError
  | argumentCount (expected found : Nat)
  | argumentType (index : Nat) (expected found : Ty)
  | divisionByZero (op : OpId)
  /-- The operands of the operation, or the type of a constant, do not fit the opcode. -/
  | typeMismatch (op : OpId)
  | undefined (value : ValueId)
  | missingReturn
  deriving DecidableEq, Repr

def EvalError.message : EvalError → String
  | .argumentCount expected found => s!"program expects {expected} argument(s), got {found}"
  | .argumentType index expected found =>
    s!"argument {index} should be {expected.name}, got {found.name}"
  | .divisionByZero o => s!"division by zero in {o}"
  | .typeMismatch o => s!"operands of {o} have unsupported types"
  | .undefined v => s!"value {v} is used before it is defined"
  | .missingReturn => "program ends without `return`"

/-- The values known so far in a run. -/
abbrev Env := Table Scalar

namespace Env

def get (env : Env) (v : ValueId) : Attempt EvalError Scalar :=
  match env.get? v.index with
  | some x => .ok x
  | none => Attempt.fail (.undefined v)

def set (env : Env) (v : ValueId) (x : Scalar) : Env :=
  env.insert v.index x

end Env

/-! ## Operators on scalars -/

/-- A unary operator on a scalar; `none` if its type is not supported. -/
def UnaryOp.apply? : UnaryOp → Scalar → Option Scalar
  | op, .int w bits => some (.int w (op.eval bits w))
  | .neg, .double x => some (.double x.neg)
  | _, _ => none

/-- How a binary operator ends on two scalars. -/
inductive BinaryOp.Answer
  | value (x : Scalar)
  | divisionByZero
  | unsupported
  deriving DecidableEq, Repr

/-- An arithmetic operator on two doubles. -/
def BinaryOp.onDoubles? : BinaryOp → Option (Double → Double → Double)
  | .add => some Double.add
  | .sub => some Double.sub
  | .mul => some Double.mul
  | .div => some Double.div
  | .rem => some Double.rem
  | .and | .or | .xor | .shl | .shr => none

/-- A binary operator on two scalars. -/
def BinaryOp.apply (op : BinaryOp) : Scalar → Scalar → BinaryOp.Answer
  | .int w x, .int w' y =>
    if w = w' then
      match op.eval x y w with
      | some bits => .value (.int w bits)
      | none => .divisionByZero
    else .unsupported
  | .double x, .double y =>
    match op.onDoubles? with
    | some f => .value (.double (f x y))
    | none => .unsupported
  | _, _ => .unsupported

/-- A comparison of two scalars of one type. Integers are compared as signed numbers, and `false`
comes before `true`. -/
def Comparison.apply? (test : Comparison) : Scalar → Scalar → Option Bool
  | .int w x, .int w' y =>
    if w = w' then some (test.holds (some (Ord.compare (w.signed x) (w'.signed y)))) else none
  | .double x, .double y => some (test.holds (x.compare? y))
  | .bool x, .bool y => some (test.holds (some (Ord.compare x y)))
  | _, _ => none

/-! ## Operations -/

namespace Store

/-- The value of an operand slot. -/
def operandValue (d : Operation) (env : Env) (slot : Nat) : Attempt EvalError Scalar :=
  match d.operands[slot]? with
  | some v => env.get v
  | none => .error (.fault .dangling)

/-- The value that an operation computes; a `ret` computes none. -/
def compute (o : OpId) (d : Operation) (env : Env) : Attempt EvalError (Option Scalar) :=
  match d.opcode with
  | .const bits =>
    match d.resultTy?.bind Ty.width? with
    | some w => .ok (some (.int w (w.wrap bits)))
    | none => Attempt.fail (.typeMismatch o)
  | .fconst bits => .ok (some (.double ⟨bits⟩))
  | .unary op => do
    let x ← operandValue d env 0
    match op.apply? x with
    | some y => .ok (some y)
    | none => Attempt.fail (.typeMismatch o)
  | .binary op => do
    let x ← operandValue d env 0
    let y ← operandValue d env 1
    match op.apply x y with
    | .value z => .ok (some z)
    | .divisionByZero => Attempt.fail (.divisionByZero o)
    | .unsupported => Attempt.fail (.typeMismatch o)
  | .compare test => do
    let x ← operandValue d env 0
    let y ← operandValue d env 1
    match test.apply? x y with
    | some b => .ok (some (.bool b))
    | none => Attempt.fail (.typeMismatch o)
  | .ret => .ok none

/-- The environment after an operation: its value is known under its result, if it has one. -/
def bindResult (d : Operation) (env : Env) : Option Scalar → Env
  | none => env
  | some x =>
    match d.result? with
    | some v => env.set v x
    | none => env

/-- Executes operations in order up to the first `ret`, and gives the values of its operands. -/
def execute (s : Store) : List OpId → Env → Attempt EvalError (List Scalar)
  | [], _ => Attempt.fail .missingReturn
  | o :: rest, env => do
    let d ← s.op o
    if d.opcode = .ret then d.operands.mapM env.get
    else
      let x? ← compute o d env
      execute s rest (bindResult d env x?)

/-- Gives the arguments to the inputs, which must have their types; `index` counts them. -/
def bindArguments (s : Store) :
    List (ValueId × Scalar) → Nat → Env → Attempt EvalError Env
  | [], _, env => .ok env
  | (input, arg) :: rest, index, env => do
    let expected ← s.valueTy input
    if arg.ty ≠ expected then Attempt.fail (.argumentType index expected arg.ty)
    else bindArguments s rest (index + 1) (env.set input arg)

/-- **The outputs of a program on the given arguments.** -/
def run (s : Store) (p : Program) (args : List Scalar) : Attempt EvalError (List Scalar) := do
  let inputs := p.inputs s
  if inputs.length ≠ args.length then
    Attempt.fail (.argumentCount inputs.length args.length)
  else
    let ops ← p.ops s
    let env ← s.bindArguments (inputs.zip args) 0 Table.empty
    s.execute ops env

end Store

end Mba
