import Mba.Listing.Scan

/-!
# Building a program from a listing

The parameters become the arguments of a new block, and the lines its operations, in order. Names
are resolved to the values of earlier lines, so every operand is defined before it is used. A
listing that fails at a line leaves the block and the operations of the lines before it in the
store, and also the operation of the failing line where its own operands were in order.
-/

namespace Mba.Listing

/-- The values known by name. -/
abbrev Names := List (String × ValueId)

/-- What a line does. -/
inductive Instruction
  | int (value : Int)
  | double (x : Double)
  | ret
  | unary (op : UnaryOp)
  | binary (op : BinaryOp)
  | compare (test : Comparison)
  deriving DecidableEq, Repr

/-- The instruction that a line names; `none` if the mnemonic is unknown. -/
def Line.instruction? (line : Line) : Option Instruction :=
  match line.literal? with
  | some (.int value) => some (.int value)
  | some (.double x) => some (.double x)
  | none =>
    if line.mnemonic = "return" then some .ret
    else
      ((UnaryOp.ofMnemonic? line.mnemonic).map .unary).or <|
        ((BinaryOp.ofMnemonic? line.mnemonic).map .binary).or <|
          (Comparison.ofMnemonic? line.mnemonic).map .compare

/-- The type of the given name. -/
def readTy (name : String) (offset : Nat) : Except ReadError Ty :=
  match Ty.ofName? name with
  | some ty => .ok ty
  | none => .error ⟨.unknownType name, offset⟩

/-- The value of the given name. -/
def Names.resolve (names : Names) (offset : Nat) (name : String) : Except ReadError ValueId :=
  match names.lookup name with
  | some v => .ok v
  | none => .error ⟨.undefinedValue name, offset⟩

/-- An edit that makes no changes. -/
def check {α : Type} (result : Except ReadError α) : Edit Store ReadError α :=
  match result with
  | .ok a => pure a
  | .error e => .fail e

/-- A call of a builder at the end of the program, for the line at the given offset. -/
def call {α : Type} (p : Program) (offset : Nat) (calls : Edit Builder BuildError α) :
    Edit Store ReadError α := do
  let (a, _) ← (Store.build (.atEnd p.entry) calls).mapError fun e => ⟨.build e, offset⟩
  return a

/-- Refuses a line with another number of operands. -/
def Line.expectOperands (line : Line) (count : Nat) : Except ReadError Unit :=
  if line.operands.length = count then .ok ()
  else .error ⟨.operandCount line.mnemonic count line.operands.length, line.offset⟩

/-- The type of an integer constant, which must be annotated and hold the value if it is an integer
type. -/
def Line.constantTy (line : Line) (value : Int) (annotated? : Option Ty) :
    Except ReadError Ty :=
  match annotated? with
  | none => .error ⟨.untypedConstant, line.offset⟩
  | some ty =>
    if ty.width?.any fun w => w.signed (w.ofInt value) ≠ value then
      .error ⟨.literalRange value ty, line.offset⟩
    else .ok ty

/-- Emits the operation of a line, and gives the value that it defines. -/
def Line.emit (line : Line) (p : Program) (operands : List ValueId) (annotated? : Option Ty) :
    Edit Store ReadError (Option ValueId) :=
  match line.instruction?, operands with
  | none, _ => .fail ⟨.unknownOpcode line.mnemonic, line.offset⟩
  | some .ret, outputs => do
    let _ ← call p line.offset (Builder.ret outputs)
    return none
  | some (.int value), _ => do
    check (line.expectOperands 0)
    let ty ← check (line.constantTy value annotated?)
    some <$> call p line.offset (Builder.int ty value)
  | some (.double x), _ => do
    check (line.expectOperands 0)
    some <$> call p line.offset (Builder.double x)
  | some (.unary op), [x] => some <$> call p line.offset (Builder.unary op x)
  | some (.unary _), found => .fail ⟨.operandCount line.mnemonic 1 found.length, line.offset⟩
  | some (.binary op), [x, y] => some <$> call p line.offset (Builder.binary op x y)
  | some (.compare test), [x, y] => some <$> call p line.offset (Builder.compare test x y)
  | some (.binary _), found | some (.compare _), found =>
    .fail ⟨.operandCount line.mnemonic 2 found.length, line.offset⟩

/-- The names after a line that defines the given value. -/
def Line.bindResult (line : Line) (names : Names) (annotated? : Option Ty) :
    Option ValueId → Edit Store ReadError Names
  | none =>
    match line.result? with
    | none => pure names
    | some name => .fail ⟨.noResult line.mnemonic name, line.offset⟩
  | some v =>
    match line.result? with
    | none => .fail ⟨.unnamedResult line.mnemonic, line.offset⟩
    | some name => do
      let ty ← Edit.read fun s => s.valueTy v
      match annotated?.filter (· ≠ ty) with
      | some annotated => .fail ⟨.wrongType line.mnemonic ty annotated, line.offset⟩
      | none =>
        if (names.lookup name).isSome then .fail ⟨.redefinedValue name, line.offset⟩
        else pure ((name, v) :: names)

/-- Builds the operation of a line, and gives the names after it. -/
def Line.assemble (line : Line) (p : Program) (names : Names) : Edit Store ReadError Names := do
  let operands ← check (line.operands.mapM (names.resolve line.offset))
  let annotated? ← check (line.ty?.mapM fun name => readTy name line.offset)
  let v? ← line.emit p operands annotated?
  line.bindResult names annotated? v?

/-- Builds the operations of lines in order. -/
def assembleLines (p : Program) : List Line → Names → Edit Store ReadError Unit
  | [], _ => pure ()
  | line :: rest, names => do
    let names ← line.assemble p names
    assembleLines p rest names

/-- The names of the parameters, of which no two may be equal. -/
def nameParams : List (String × ValueId) → Names → Except ReadError Names
  | [], names => .ok names
  | (name, v) :: rest, names =>
    if (names.lookup name).isSome then .error ⟨.duplicateParameter name, 0⟩
    else nameParams rest ((name, v) :: names)

/-- **Builds the program of a listing.** -/
def assemble (listing : Listing) : Edit Store ReadError Program := do
  let params := listing.header.params
  let tys ← check (params.mapM fun (_, ty) => readTy ty 0)
  let p ← Edit.update fun s => Program.create s listing.header.name tys
  let inputs ← Edit.read fun s => .ok (p.inputs s)
  let names ← check (nameParams ((params.map (·.1)).zip inputs) [])
  assembleLines p listing.lines names
  return p

end Listing

/-- **Reads the text of a program into a store.** A text that is no listing leaves the store as it
is. -/
def Program.read (text : String) : Edit Store Listing.ReadError Program := do
  let listing ← Listing.check (Listing.ofText text)
  listing.assemble

end Mba
