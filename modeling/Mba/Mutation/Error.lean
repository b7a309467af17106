import Mba.Mutation.Eligibility
import Mba.Program.Validation
import Mba.Template

/-!
# Errors of mutation
-/

namespace Mba

/-- Why a mutation fails. Every cause is a promise that the caller broke. -/
inductive MutationError
  | ineligible (op : OpId) (reason : Ineligibility)
  | missingTemplates (op : BinaryOp)
  /-- The catalog has only `count` templates for the operator. -/
  | templateIndex (op : BinaryOp) (index count : Nat)
  | template (error : TemplateError)
  | build (error : BuildError)
  /-- The result that was to be replaced is still read. -/
  | danglingUses (value : ValueId) (remaining : Nat)
  | noResult (op : OpId)
  /-- The program is not well-formed after the mutations, which stay. -/
  | invalidProgram (violations : List Violation)
  deriving DecidableEq, Repr

namespace MutationError

def message : MutationError → String
  | .ineligible o reason => s!"{o} cannot be rewritten: {reason.message}"
  | .missingTemplates op => s!"catalog has no templates for `{op.mnemonic}`"
  | .templateIndex op index count =>
    s!"template #{index} requested for `{op.mnemonic}`, but only {count} exist"
  | .template error => s!"malformed template: {error.message}"
  | .build error => s!"emission failed: {error.message}"
  | .danglingUses v remaining => s!"{v} still has {remaining} use(s) after rebinding"
  | .noResult o => s!"{o} defines no value to rebind"
  | .invalidProgram violations =>
    s!"program is ill-formed after mutation:\n{Violation.report violations}"

/-- Whether the error reports a broken promise of the caller rather than a condition that may pass;
all of them do. -/
def isContractViolation : MutationError → Bool
  | .ineligible _ _ | .missingTemplates _ | .templateIndex _ _ _ | .template _ | .build _
  | .danglingUses _ _ | .noResult _ | .invalidProgram _ => true

end MutationError

end Mba
