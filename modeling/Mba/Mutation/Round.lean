import Mba.Mutation.Expansion
import Mba.Mutation.Rebinding
import Mba.Program.Print

/-!
# Rounds of mutation

A round picks some of the eligible operations of a program at random and replaces each by a random
template of its operator, in program order. Templates are the only way to replace an operation, so a
round is a function of the catalog, and every report names the same mutator.
-/

namespace Mba

/-- The choices that a round leaves to its caller. -/
structure MutationConfig where
  /-- A round picks at most this many operations, and always one. -/
  maxPicks : Nat := 7
  /-- Whether the program is validated after the round. -/
  validate : Bool := true
  deriving DecidableEq, Repr

/-- One operation replaced. -/
structure MutationRecord where
  /-- The operation as it was printed before it was replaced. -/
  instruction : String
  operator : BinaryOp
  templateIndex : Nat
  formula : String
  /-- The number of operations in its place. -/
  emitted : Nat
  /-- The number of operands redirected to the new value. -/
  reboundUses : Nat
  deriving DecidableEq, Repr

/-- What a round did. -/
structure MutationReport where
  mutator : String
  /-- The number of eligible operations before the round. -/
  candidates : Nat
  records : List MutationRecord
  deriving DecidableEq, Repr

namespace Bench

variable {γ : Type} [RandomSource γ]

/-- Replaces an operation by a random template of the catalog. -/
def mutate (c : Catalog) (o : OpId) : Edit (Bench γ) MutationError MutationRecord := do
  let instruction ← Edit.read fun b => b.store.printOp o
  let e ← expand c o
  let reboundUses ← onStore (Store.rebind o e.result)
  return ⟨instruction, e.operator, e.index, e.template.formula, e.emitted.length, reboundUses⟩

/-- Draws numbers below `bound`, and gives the set of them. -/
def drawMarks (bound : Nat) : Nat → Marks → γ → Marks × γ
  | 0, marks, source => (marks, source)
  | count + 1, marks, source =>
    let (i, source) := RandomSource.below bound source
    drawMarks bound count (marks.insert i ()) source

/-- Draws how many operations to pick, and then as many of the candidates, of which some may be
equal. -/
def drawPicks (maxPicks : Nat) (candidates : List OpId) (source : γ) : List OpId × γ :=
  let (count, source) := RandomSource.upTo (max 1 maxPicks) source
  let (marks, source) := drawMarks candidates.length count Table.empty source
  let picks := candidates.zipIdx.filterMap fun (o, i) =>
    if marks.contains i then some o else none
  (picks, source)

/-- Replaces operations in order; those no longer eligible are passed over. -/
def mutateAll (c : Catalog) : List OpId → Edit (Bench γ) MutationError (List MutationRecord)
  | [] => pure []
  | o :: rest => do
    if ← Edit.read fun b => b.store.isEligible o then
      let record ← mutate c o
      return record :: (← mutateAll c rest)
    else mutateAll c rest

/-- The eligible operations of a program, in order. -/
def candidates (p : Program) (s : Store) : Except Fault (List OpId) := do
  (← p.ops s).filterM s.isEligible

/-- **One round of mutation**; `none` if no operation is eligible. -/
def mutateProgram (c : Catalog) (config : MutationConfig) (p : Program) :
    Edit (Bench γ) MutationError (Option MutationReport) := do
  let candidates ← Edit.read fun b => candidates p b.store
  if candidates.isEmpty then return none
  else
    let picks ← drawing (drawPicks config.maxPicks candidates)
    let records ← mutateAll c picks
    if config.validate then
      let violations ← Edit.read fun b => b.store.validate p
      if !violations.isEmpty then Edit.fail (.invalidProgram violations)
    return some ⟨"mba", candidates.length, records⟩

end Bench

end Mba
