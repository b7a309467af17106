import Mba.Store.Change

/-!
# Programs

A program is a name and the block that holds its operations. It owns nothing: the same program names
the same block in every copy of the store. Its length is that of its list of operations.
-/

namespace Mba

/-- A named program over one block of a store. -/
structure Program where
  name : String
  entry : BlockId
  deriving DecidableEq, Repr

namespace Program

/-- Creates a program without operations. -/
def create (s : Store) (name : String) (inputs : List Ty) : Program × Store :=
  let (entry, s) := s.createBlock inputs []
  (⟨name, entry⟩, s)

/-- The input values. -/
def inputs (p : Program) (s : Store) : List ValueId :=
  s.args p.entry

def inputTys (p : Program) (s : Store) : Except Fault (List Ty) :=
  (s.block p.entry).map (·.argTys)

/-- The operations in program order. -/
def ops (p : Program) (s : Store) : Except Fault (List OpId) :=
  (s.block p.entry).map (·.ops)

/-- The last operation, if it is a `ret`. -/
def terminator? (p : Program) (s : Store) : Except Fault (Option OpId) := do
  match (← p.ops s).getLast? with
  | none => .ok none
  | some o =>
    let d ← s.op o
    .ok (if d.opcode = .ret then some o else none)

end Program

end Mba
