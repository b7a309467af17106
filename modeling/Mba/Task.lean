import Mba.Catalog.Standard
import Mba.Equivalence
import Mba.Listing.Assembly
import Mba.Mutation.Round

/-!
# Tasks

What can be done with the text of a program: run it on arguments given as texts, or mutate it, and
check on random inputs that it still behaves the same. All that is random in a task comes from one
source, which is made from the seed of the task; any kind of source will do.
-/

namespace Mba

/-- Why a task fails. -/
inductive TaskError
  | read (error : Listing.ReadError)
  | eval (error : EvalError)
  | mutation (error : MutationError)
  | validation (violations : List Violation)
  | argument (index : Nat) (text : String) (ty : Ty)
  | mismatch (mismatch : Mismatch)
  deriving DecidableEq, Repr

def TaskError.message : TaskError → String
  | .read error => error.message
  | .eval error => error.message
  | .mutation error => error.message
  | .validation violations => s!"invalid program:\n{Violation.report violations}"
  | .argument index text ty => s!"argument {index}: `{text}` is not a valid {ty.name}"
  | .mismatch m => s!"mutation changed behaviour: {m.message}"

/-- Reads a program, which must be well-formed. -/
def Program.load (text : String) : Edit Store TaskError Program := do
  let p ← (Program.read text).mapError .read
  let violations ← Edit.read fun s => s.validate p
  if violations.isEmpty then return p else Edit.fail (.validation violations)

namespace Task

/-- Renames the errors of a computation that only reads. -/
def mapError {ε δ α : Type} (rename : ε → δ) (a : Attempt ε α) : Attempt δ α :=
  a.mapError fun
    | .fault f => .fault f
    | .error e => .error (rename e)

/-! ## Running -/

/-- Reads the arguments of a program; `index` counts them. -/
def readArguments : List (Ty × String) → Nat → Except TaskError (List Scalar)
  | [], _ => .ok []
  | (ty, text) :: rest, index =>
    match Scalar.read? ty text with
    | none => .error (.argument index text ty)
    | some x => (readArguments rest (index + 1)).map (x :: ·)

/-- Runs a loaded program on arguments given as texts. -/
def runOn (p : Program) (args : List String) (s : Store) : Attempt TaskError (List Scalar) := do
  let tys ← p.inputTys s
  if tys.length ≠ args.length then
    Attempt.fail (.eval (.argumentCount tys.length args.length))
  else
    match readArguments (tys.zip args) 0 with
    | .error e => Attempt.fail e
    | .ok values => mapError .eval (s.run p values)

/-- **Runs the text of a program on arguments given as texts.** -/
def run (text : String) (args : List String) : Attempt TaskError (List Scalar) :=
  Outcome.answer <| (do
    let p ← Program.load text
    Edit.read (runOn p args)) Store.empty

/-! ## Mutating -/

/-- The choices that a mutation task leaves to its caller. -/
structure MutateOptions where
  seed : UInt64 := 0
  rounds : Nat := 1
  /-- The number of random inputs to check the behaviour on. -/
  check : Nat := 0
  config : MutationConfig := {}
  deriving DecidableEq, Repr

/-- What a mutation task gives. -/
structure MutateResult where
  /-- The text of the mutated program. -/
  program : String
  /-- One report for each round that found something to replace. -/
  reports : List MutationReport
  /-- The number of inputs that the behaviour was checked on. -/
  checked : Nat
  deriving DecidableEq, Repr

section Random

variable {γ : Type} [RandomSource γ]

/-- Rounds of mutation, up to the first one that finds nothing to replace. -/
def rounds (c : Catalog) (config : MutationConfig) (p : Program) :
    Nat → Edit (Bench γ) MutationError (List MutationReport)
  | 0 => pure []
  | count + 1 => do
    match ← Bench.mutateProgram c config p with
    | none => return []
    | some report => return report :: (← rounds c config p count)

/-- Mutates a loaded program and checks that it still behaves the same. -/
def mutateOn (p : Program) (options : MutateOptions) : Edit (Bench γ) TaskError MutateResult := do
  let cases ← Edit.step fun b => do
    let (cases, source) ← b.store.record p options.check b.source
    return (cases, { b with source })
  let reports ← (rounds Catalog.standard options.config p options.rounds).mapError .mutation
  let mismatch? ← Edit.read fun b => b.store.check p cases
  match mismatch? with
  | some m => Edit.fail (.mismatch m)
  | none =>
    let program ← Edit.read fun b => p.print b.store
    return ⟨program, reports, cases.length⟩

/-- **Mutates the text of a program** with the standard catalog; `ofSeed` makes the source. -/
def mutate (ofSeed : UInt64 → γ) (text : String) (options : MutateOptions) :
    Attempt TaskError MutateResult :=
  Outcome.answer <| (do
    let p ← Bench.onStore (Program.load text)
    mutateOn p options) ⟨Store.empty, ofSeed options.seed⟩

end Random

end Task

end Mba
