import Mba.Id

/-!
# Edits

An edit is a computation that changes a state and may stop early, in one of two ways. An *error* is
an answer to the caller, and the changes made before it stay. A *fault* is a broken promise of the
caller, such as the number of an operation that does not exist, and leaves no state at all.

Out of scope: messages to a log, which tell what an edit does and change nothing.

Results:
* `Edit.bind_done`, `Edit.bind_failed`, `Edit.bind_fault`: an edit goes on only where the one before
  it is done.
-/

namespace Mba

/-- A broken promise of the caller. -/
inductive Fault
  /-- A number or an operand slot has no entry. -/
  | dangling
  /-- A new operation is already placed in a block. -/
  | createLinked
  /-- An operation to remove is still placed in a block. -/
  | removeLinked (op : OpId)
  /-- The result of an operation to remove is still read. -/
  | removeUsed (result : ValueId) (live : Nat)
  /-- An operation to place at the end of a block is placed already. -/
  | pushLinked (op : OpId)
  /-- An operation to place before another is placed already. -/
  | insertLinked (op : OpId)
  /-- The operation to place before is not in the block. -/
  | insertAnchor (before : OpId) (block : BlockId)
  deriving DecidableEq, Repr

/-- What there is to say about the fault; a missing entry says nothing. -/
def Fault.message? : Fault → Option String
  | .dangling => none
  | .createLinked => some "create_op: new ops start unlinked, got one with a parent block"
  | .removeLinked op =>
    some s!"remove_op: unlink {op} with remove_op_from_block before removing it"
  | .removeUsed result live =>
    some s!"remove_op: {result} still has {live} use(s), rebind them first"
  | .pushLinked op => some s!"push_op: {op} is already linked"
  | .insertLinked op => some s!"insert_op_before: {op} is already linked"
  | .insertAnchor before block => some s!"insert_op_before: {before} is not in {block}"

/-- How a computation that only reads stops early. -/
inductive Stop (ε : Type)
  | fault (fault : Fault)
  | error (error : ε)
  deriving DecidableEq, Repr

/-- A computation that reads a state and may stop at a fault or an error. -/
abbrev Attempt (ε α : Type) := Except (Stop ε) α

instance (ε : Type) : MonadLift (Except Fault) (Except (Stop ε)) where
  monadLift
    | .ok a => .ok a
    | .error f => .error (.fault f)

namespace Attempt

variable {ε α : Type}

/-- Stops with an error. -/
def fail (error : ε) : Attempt ε α := .error (.error error)

/-- The answer of the computation, an error being one; only a fault is left as a stop. -/
def answer : Attempt ε α → Except Fault (Except ε α)
  | .ok a => .ok (.ok a)
  | .error (.error e) => .ok (.error e)
  | .error (.fault f) => .error f

end Attempt

/-- How an edit ends. -/
inductive Outcome (σ ε α : Type)
  | done (value : α) (state : σ)
  | failed (error : ε) (state : σ)
  | fault (fault : Fault)

/-- The answer of an edit, without the state it leaves. -/
def Outcome.answer {σ ε α : Type} : Outcome σ ε α → Attempt ε α
  | .done a _ => .ok a
  | .failed e _ => .error (.error e)
  | .fault f => .error (.fault f)

/-- A computation that changes a state and may stop at a fault or an error. -/
def Edit (σ ε α : Type) : Type := σ → Outcome σ ε α

namespace Edit

variable {σ τ ε δ α β : Type}

protected def pure (a : α) : Edit σ ε α := fun s => .done a s

protected def bind (m : Edit σ ε α) (next : α → Edit σ ε β) : Edit σ ε β := fun s =>
  match m s with
  | .done a s => next a s
  | .failed e s => .failed e s
  | .fault f => .fault f

instance : Monad (Edit σ ε) where
  pure := Edit.pure
  bind := Edit.bind

/-- Stops with an error and keeps the state. -/
def fail (error : ε) : Edit σ ε α := fun s => .failed error s

/-- Reads the state. -/
def read (query : σ → Attempt ε α) : Edit σ ε α := fun s =>
  match query s with
  | .ok a => .done a s
  | .error (.error e) => .failed e s
  | .error (.fault f) => .fault f

/-- Changes the state by a step that makes no errors. -/
def step (change : σ → Except Fault (α × σ)) : Edit σ ε α := fun s =>
  match change s with
  | .ok (a, s) => .done a s
  | .error f => .fault f

/-- Changes the state by a step that makes no errors and gives no answer. -/
def change (change : σ → Except Fault σ) : Edit σ ε Unit := fun s =>
  match change s with
  | .ok s => .done () s
  | .error f => .fault f

/-- Changes the state by a total function. -/
def update (change : σ → α × σ) : Edit σ ε α := fun s =>
  let (a, s) := change s
  .done a s

/-- The same edit, with its errors renamed. -/
def mapError (rename : ε → δ) (m : Edit σ ε α) : Edit σ δ α := fun s =>
  match m s with
  | .done a s => .done a s
  | .failed e s => .failed (rename e) s
  | .fault f => .fault f

@[simp]
theorem pure_apply (a : α) (s : σ) : (pure a : Edit σ ε α) s = .done a s := rfl

theorem bind_done {m : Edit σ ε α} {next : α → Edit σ ε β} {s t : σ} {a : α}
    (h : m s = .done a t) : (m >>= next) s = next a t := by
  show Edit.bind m next s = _
  simp only [Edit.bind, h]

theorem bind_failed {m : Edit σ ε α} {next : α → Edit σ ε β} {s t : σ} {e : ε}
    (h : m s = .failed e t) : (m >>= next) s = .failed e t := by
  show Edit.bind m next s = _
  simp only [Edit.bind, h]

theorem bind_fault {m : Edit σ ε α} {next : α → Edit σ ε β} {s : σ} {f : Fault}
    (h : m s = .fault f) : (m >>= next) s = .fault f := by
  show Edit.bind m next s = _
  simp only [Edit.bind, h]

end Edit

end Mba
