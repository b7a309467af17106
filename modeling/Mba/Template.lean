import Mba.Operator

/-!
# Templates

A template is a recipe that computes a value from two words `x` and `y`, step by step. A step
applies an operator to `x`, `y`, integer literals and results of earlier steps, and the last step
gives the value. A well-shaped template has a step at least, uses the operators that commute with
truncation only, and reads no step before it is computed.
-/

namespace Mba

namespace Template

/-- What a step reads. -/
inductive Operand
  | x
  | y
  /-- An integer, wrapped to the width at hand. -/
  | lit (value : Int)
  /-- The result of the step at this index. -/
  | tmp (step : Nat)
  deriving DecidableEq, Repr

inductive Step
  | unary (op : UnaryOp) (operand : Operand)
  | binary (op : BinaryOp) (lhs rhs : Operand)
  deriving DecidableEq, Repr

end Template

/-- A recipe, with the formula that it follows. -/
structure Template where
  formula : String
  steps : List Template.Step
  deriving DecidableEq, Repr

/-- What is wrong with the shape of a template. -/
inductive TemplateError
  | empty (formula : String)
  | forwardReference (formula : String) (step read : Nat)
  | forbiddenOperator (formula : String) (step : Nat) (operator : String)
  deriving DecidableEq, Repr

def TemplateError.message : TemplateError → String
  | .empty formula => s!"template `{formula}` has no steps"
  | .forwardReference formula step read =>
    s!"step {step} of `{formula}` reads step {read}, which is not computed yet"
  | .forbiddenOperator formula step operator =>
    s!"step {step} of `{formula}` uses `{operator}`, which templates may not emit"

namespace Template

def Operand.isLiteral : Operand → Bool
  | .lit _ => true
  | .x | .y | .tmp _ => false

/-- The step that an operand reads, if it is not computed before step `step`. -/
def Operand.forward? (step : Nat) : Operand → Option Nat
  | .tmp read => if step ≤ read then some read else none
  | .x | .y | .lit _ => none

def Step.operands : Step → List Operand
  | .unary _ a => [a]
  | .binary _ a b => [a, b]

/-- Whether the binary operator may stand in a template: its low bits depend on those of its
operands alone. -/
def allowsBinary : BinaryOp → Bool
  | .add | .sub | .mul | .and | .or | .xor => true
  | .div | .rem | .shl | .shr => false

def allowsUnary : UnaryOp → Bool
  | .not => true
  | .neg => false

/-- The mnemonic of the operator of a step, if it may not stand in a template. -/
def Step.forbidden? : Step → Option String
  | .unary op _ => if allowsUnary op then none else some op.mnemonic
  | .binary op _ _ => if allowsBinary op then none else some op.mnemonic

/-- The number of literals; each takes an instruction of its own. -/
def literalCount (t : Template) : Nat :=
  (t.steps.flatMap Step.operands).countP Operand.isLiteral

/-- The number of instructions that the template takes. -/
def instructionCount (t : Template) : Nat :=
  t.steps.length + t.literalCount

/-! ## Shape -/

/-- What is wrong with a step, given its index. -/
def Step.error? (formula : String) (index : Nat) (step : Step) : Option TemplateError :=
  match step.forbidden? with
  | some operator => some (.forbiddenOperator formula index operator)
  | none => (step.operands.findSome? (Operand.forward? index)).map (.forwardReference formula index)

/-- The first thing wrong with the shape of a template. -/
def shapeError? (t : Template) : Option TemplateError :=
  if t.steps.isEmpty then some (.empty t.formula)
  else t.steps.zipIdx.findSome? fun (step, index) => step.error? t.formula index

/-- Whether the template is well-shaped. -/
def WellShaped (t : Template) : Prop :=
  t.shapeError? = none

instance (t : Template) : Decidable t.WellShaped :=
  inferInstanceAs (Decidable (t.shapeError? = none))

/-! ## Evaluation -/

/-- The value of an operand, given the inputs and the results of the steps so far. -/
@[inline]
def Operand.value? (x y : UInt64) (w : Width) (temps : Array UInt64) : Operand → Option UInt64
  | .x => some (w.wrap x)
  | .y => some (w.wrap y)
  | .lit value => some (w.ofInt value)
  | .tmp step => temps[step]?

/-- The result of a step. -/
@[inline]
def Step.value? (x y : UInt64) (w : Width) (temps : Array UInt64) : Step → Option UInt64
  | .unary op a => (a.value? x y w temps).map fun v => op.eval v w
  | .binary op a b =>
    (a.value? x y w temps).bind fun l => (b.value? x y w temps).bind fun r => op.eval l r w

/-- The results of all steps, those so far among them. -/
def temps? (x y : UInt64) (w : Width) : List Step → Array UInt64 → Option (Array UInt64)
  | [], temps => some temps
  | step :: rest, temps =>
    (step.value? x y w temps).bind fun v => temps? x y w rest (temps.push v)

/-- **The value of a template** on two words of width `w`. -/
def evaluate (t : Template) (x y : UInt64) (w : Width) : Option UInt64 :=
  (temps? x y w t.steps #[]).bind Array.back?

end Template

end Mba
