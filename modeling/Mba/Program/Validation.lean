import Mba.Builder

/-!
# Well-formed programs

A program is well-formed when every operand is defined before it, every operation is typed as its
opcode demands and placed in the program's block, the only `ret` is the last operation, and the use
chains of the program's values list exactly the operand slots of its operations.

`Store.validate` gives all violations: those of the operations in program order, then those of the
use chains in the order of their texts.
-/

namespace Mba

/-- What is wrong with the types of an operation. -/
inductive TypeDefect
  | operandCount (expected found : Nat)
  /-- The operation has a result and should not, or the other way round. -/
  | resultPresence
  | unallocatedOperand
  | illTyped (operands : List Ty) (result? : Option Ty)
  deriving DecidableEq, Repr

def TypeDefect.message : TypeDefect → String
  | .operandCount expected found => s!"expected {expected} operand(s), found {found}"
  | .resultPresence => "result presence does not match the opcode"
  | .unallocatedOperand => "operand refers to an unallocated value"
  | .illTyped operands result? =>
    let tys := ", ".intercalate (operands.map Ty.name)
    let result := (result?.map Ty.name).getD "none"
    s!"ill-typed: operands ({tys}) -> {result}"

/-- How the use chain of a value and the operands differ. -/
inductive ChainDefect
  /-- A slot reads the value and is not in its chain. -/
  | unlisted (use : Use) (value : ValueId)
  /-- The chain lists a slot that is no slot of the program reading the value. -/
  | stray (use : Use) (value : ValueId)
  deriving DecidableEq, Repr

def ChainDefect.message : ChainDefect → String
  | .unlisted use v => s!"operand #{use.slot} of {use.user} uses {v} but no use-chain entry exists"
  | .stray use v =>
    s!"use-chain entry for {v} claims use by {use.user} operand #{use.slot}, " ++
      "but no such operand exists in the program"

/-- A violation of well-formedness. -/
inductive Violation
  | useBeforeDef (use : Use) (value : ValueId)
  /-- The operand is the result of an operation that is not placed in any block. -/
  | staleValue (use : Use) (value : ValueId)
  | type (op : OpId) (opcode : Opcode) (defect : TypeDefect)
  | parentMismatch (op : OpId) (parent? : Option BlockId)
  | misplacedReturn (op : OpId)
  | missingReturn
  | useChain (defect : ChainDefect)
  deriving DecidableEq, Repr

def Violation.message : Violation → String
  | .useBeforeDef use v =>
    s!"operand #{use.slot} of {use.user} uses {v}, which is not defined before it"
  | .staleValue use v =>
    s!"operand #{use.slot} of {use.user} uses {v}, whose definition was removed"
  | .type o opcode defect => s!"{o} (`{opcode.mnemonic}`): {defect.message}"
  | .parentMismatch o parent? =>
    let parent := (parent?.map toString).getD "unset"
    s!"{o} is listed in the program but its parent block is {parent}"
  | .misplacedReturn o => s!"`return` at {o} is not the last operation"
  | .missingReturn => "program does not end in `return`"
  | .useChain defect => defect.message

/-- The report of a validation, one line for each violation. -/
def Violation.report (violations : List Violation) : String :=
  if violations.isEmpty then "validation passed"
  else
    let lines := violations.map fun v => s!"  - {v.message}\n"
    s!"{violations.length} validation error(s) found:\n" ++ String.join lines

namespace Store

/-! ## Types -/

/-- Whether an operation of the given kind may have these operand types and this result type. -/
def wellTyped : Opcode → List Ty → Option Ty → Bool
  | .const _, _, result? => result?.any Ty.isInt
  | .fconst _, _, result? => result? = some .double
  | .unary op, [ty], result? => op.accepts ty && result? = some ty
  | .binary op, [ty, ty'], result? => op.accepts ty && ty' = ty && result? = some ty
  | .compare _, [ty, ty'], result? => ty = ty' && result? = some .bool
  | .ret, _, _ => true
  | _, _, _ => false

@[simp]
theorem wellTyped_const (bits : UInt64) (tys : List Ty) (result? : Option Ty) :
    wellTyped (.const bits) tys result? = result?.any Ty.isInt := rfl

@[simp]
theorem wellTyped_fconst (bits : UInt64) (tys : List Ty) (result? : Option Ty) :
    wellTyped (.fconst bits) tys result? = decide (result? = some .double) := rfl

@[simp]
theorem wellTyped_unary (op : UnaryOp) (ty : Ty) (result? : Option Ty) :
    wellTyped (.unary op) [ty] result? = (op.accepts ty && decide (result? = some ty)) := rfl

@[simp]
theorem wellTyped_binary (op : BinaryOp) (ty ty' : Ty) (result? : Option Ty) :
    wellTyped (.binary op) [ty, ty'] result? =
      (op.accepts ty && decide (ty' = ty) && decide (result? = some ty)) := rfl

@[simp]
theorem wellTyped_compare (test : Comparison) (ty ty' : Ty) (result? : Option Ty) :
    wellTyped (.compare test) [ty, ty'] result? =
      (decide (ty = ty') && decide (result? = some .bool)) := rfl

/-- The types of the operands that are values. -/
def operandTys (s : Store) (operands : List ValueId) : List Ty :=
  operands.filterMap fun v => s.values[v.index]?.map Value.ty

/-- What is wrong with the types of an operation, if anything. -/
def typeDefect? (s : Store) (d : Operation) : Option TypeDefect :=
  match d.opcode.arity?.filter (· ≠ d.operands.length) with
  | some arity => some (.operandCount arity d.operands.length)
  | none =>
    let tys := s.operandTys d.operands
    if d.opcode.hasResult ≠ d.resultTy?.isSome then some .resultPresence
    else if tys.length ≠ d.operands.length then some .unallocatedOperand
    else if wellTyped d.opcode tys d.resultTy? then none
    else some (.illTyped tys d.resultTy?)

/-! ## Dataflow -/

/-- The violation of an operand, given the values defined before its operation. -/
def operandViolation? (s : Store) (defined : Marks) (use : Use) (v : ValueId) :
    Except Fault (Option Violation) := do
  if defined.contains v.index then return none
  match s.values[v.index]?.map Value.origin with
  | some (.result definer) =>
    if ← s.isPlaced definer then return some (.useBeforeDef use v)
    else return some (.staleValue use v)
  | _ => return some (.useBeforeDef use v)

/-- The violations of an operation, given the values defined before it and whether it is the last
one. -/
def opViolations (s : Store) (p : Program) (defined : Marks) (o : OpId) (isLast : Bool) :
    Except Fault (List Violation) := do
  let d ← s.op o
  let parent := if d.parent? = some p.entry then [] else [.parentMismatch o d.parent?]
  let operands ← d.operands.zipIdx.mapM fun (v, i) => s.operandViolation? defined ⟨o, i⟩ v
  let types := (s.typeDefect? d).toList.map (.type o d.opcode ·)
  let placement := if d.opcode = .ret && !isLast then [.misplacedReturn o] else []
  return parent ++ operands.filterMap id ++ types ++ placement

/-- The violations of the last operations of a program, given the values defined before them. -/
def flowViolations (s : Store) (p : Program) : List OpId → Marks → Except Fault (List Violation)
  | [], _ => .ok []
  | o :: rest, defined => do
    let here ← s.opViolations p defined o rest.isEmpty
    let defined := match s.result? o with
      | some v => defined.insert v.index ()
      | none => defined
    return here ++ (← s.flowViolations p rest defined)

/-! ## Use chains -/

/-- The numbers of a list, each once, in the order of their first places. -/
def distinct (numbers : List Nat) : List Nat :=
  (numbers.foldl (fun (seen, found) i =>
    if Table.contains seen i then (seen, found) else (Table.insert seen i (), i :: found))
    ((Table.empty : Marks), ([] : List Nat))).2.reverse

/-- Every operand slot of a list of operations, with the value that it reads. -/
def slots (s : Store) (ops : List OpId) : List (Use × ValueId) :=
  ops.flatMap fun o =>
    match s.ops[o.index]? with
    | some d => d.operands.zipIdx.map fun (v, i) => (⟨o, i⟩, v)
    | none => []

/-- Whether a slot of the marked operations reads the value. -/
def reads (s : Store) (listed : Marks) (use : Use) (v : ValueId) : Bool :=
  listed.contains use.user.index &&
    (s.ops[use.user.index]?.bind (·.operands[use.slot]?)) == some v

/-- The differences between the operands of a program and the use chains of its values. -/
def chainDefects (s : Store) (p : Program) (ops : List OpId) : List ChainDefect :=
  let listed := Marks.ofList (ops.map (·.index))
  let slots := s.slots ((distinct (ops.map (·.index))).map OpId.mk)
  let unlisted := slots.filterMap fun (use, v) =>
    if s.isAllocated v && !(s.uses v).contains use then some (.unlisted use v) else none
  let values := p.inputs s ++ slots.map (·.2) ++ ops.filterMap s.result?
  let checked := ((distinct (values.map (·.index))).map ValueId.mk).filter s.isAllocated
  let stray := checked.flatMap fun v =>
    (s.uses v).filterMap fun use => if s.reads listed use v then none else some (.stray use v)
  unlisted ++ stray

/-! ## Programs -/

/-- **All violations of a program**; a well-formed one has none. -/
def validate (s : Store) (p : Program) : Except Fault (List Violation) := do
  let ops ← p.ops s
  let inputs := Marks.ofList ((p.inputs s).map (·.index))
  let flow ← s.flowViolations p ops inputs
  let ending := if (← p.terminator? s).isNone then [.missingReturn] else []
  let chains := (s.chainDefects p ops).mergeSort fun a b => !(b.message < a.message)
  return flow ++ ending ++ chains.map .useChain

end Store

end Mba
