import Mba.Double.Decimal
import Mba.Program.Basic

/-!
# Printing programs

A program is printed in the form in which it is read, with its values numbered from `0` in the order
of their definitions. So the text depends on the operations alone and not on the numbers that they
and their values have in the store. A value without a number is printed by the one it has in the
store, behind a `?`.
-/

namespace Mba

/-- The numbers that values are printed with. -/
structure Numbering where
  numbers : Table Nat
  next : Nat

namespace Numbering

/-- No value has a number yet. -/
def start : Numbering := ⟨Table.empty, 0⟩

/-- The numbering in which `v` has the next number. -/
def assign (n : Numbering) (v : ValueId) : Numbering :=
  ⟨n.numbers.insert v.index n.next, n.next + 1⟩

/-- The name of a value. -/
def name (n : Numbering) (v : ValueId) : String :=
  match n.numbers.get? v.index with
  | some i => s!"%{i}"
  | none => s!"%?{v}"

end Numbering

/-- The text of an operation, given the names of its operands and of its result. -/
def Operation.text (d : Operation) (operands : List String) (result? : Option String) : String :=
  let result := (result?.map fun name => s!"{name} = ").getD ""
  let literal := match d.opcode with
    | .const bits =>
      match d.resultTy?.bind Ty.width? with
      | some w => s!" {w.signed bits}"
      | none => s!" {bits.toNat}"
    | .fconst bits => s!" {(Double.mk bits).text}"
    | .unary _ | .binary _ | .compare _ | .ret => ""
  let operands := if operands.isEmpty then "" else " " ++ ", ".intercalate operands
  let ty := (d.resultTy?.map fun ty => s!" : {ty.name}").getD ""
  result ++ d.opcode.mnemonic ++ literal ++ operands ++ ty

/-- The text of one operation, with values named by their numbers in the store. -/
def Store.printOp (s : Store) (o : OpId) : Except Fault String := do
  let d ← s.op o
  let name (v : ValueId) : String := s!"%{v.index}"
  return d.text (d.operands.map name) (d.result?.map name)

/-- The texts of operations in order, each with the numbering it leaves. -/
def Store.printOps (s : Store) : List OpId → Numbering → Except Fault (List String)
  | [], _ => .ok []
  | o :: rest, n => do
    let d ← s.op o
    let after := match d.result? with
      | some v => n.assign v
      | none => n
    let text := d.text (d.operands.map n.name) (d.result?.map after.name)
    return text :: (← s.printOps rest after)

/-- The parameters of a program and the numbering they leave. -/
def Store.printInputs (s : Store) : List ValueId → Numbering →
    Except Fault (List String × Numbering)
  | [], n => .ok ([], n)
  | v :: rest, n => do
    let ty ← s.valueTy v
    let after := n.assign v
    let (texts, n) ← s.printInputs rest after
    return (s!"{after.name v}: {ty.name}" :: texts, n)

/-- **The text of a program.** -/
def Program.print (p : Program) (s : Store) : Except Fault String := do
  let (inputs, n) ← s.printInputs (p.inputs s) Numbering.start
  let ops ← s.printOps (← p.ops s) n
  let head := s!"program @{p.name}(" ++ ", ".intercalate inputs ++ ") \x7b\n"
  return head ++ String.join (ops.map fun op => s!"  {op}\n") ++ "\x7d\n"

end Mba
