import Mba.Mutation.Error

/-!
# Rebinding a result

Rebinding makes everything that reads the result of an operation read another value, and removes the
operation.
-/

namespace Mba.Store

/-- The result of an operation and the block in which it is placed. -/
def rebindable (s : Store) (o : OpId) : Attempt MutationError (ValueId × BlockId) :=
  match s.result? o with
  | none => Attempt.fail (.noResult o)
  | some old => do
    let d ← s.op o
    match d.parent? with
    | none => Attempt.fail (.build (.detached o))
    | some block => return (old, block)

/-- **Redirects every use of the result of an operation to a value, and removes the operation.**
Gives the number of operands redirected. Only a result that is rebound to itself keeps its uses,
which is an error and changes nothing. -/
def rebind (o : OpId) (new : ValueId) : Edit Store MutationError Nat := do
  let (old, block) ← Edit.read (rebindable · o)
  let count ← Edit.step fun s => s.replaceAllUses old new
  let remaining ← Edit.read fun s => .ok (s.uses old).length
  if 0 < remaining then Edit.fail (.danglingUses old remaining)
  else
    Edit.change fun s => s.unlinkOp block o
    Edit.change fun s => s.removeOp o
    return count

end Mba.Store
