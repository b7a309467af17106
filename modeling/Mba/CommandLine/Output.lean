import Mba.Catalog.Description
import Mba.CommandLine.Command
import Mba.Json.Codec

/-!
# What a command writes

The answer of a command goes to the standard output; reports, confirmations and errors go to the
error output. The exit code is `0`, or `1` after an error, or `2` where a template fails its check.
-/

namespace Mba

/-- Why a file cannot be read. -/
inductive FileError
  | notFound
  /-- A path leads through something that is no directory. -/
  | notDirectory
  | isDirectory
  | nameTooLong
  /-- The contents are no text. -/
  | notText
  /-- Another error of the system, with what is said of it. -/
  | other (message : String)
  deriving DecidableEq, Repr

/-- What is said of a file that cannot be read. -/
def FileError.message : FileError → String
  | .notFound => "No such file or directory (os error 2)"
  | .notDirectory => "Not a directory (os error 20)"
  | .isDirectory => "Is a directory (os error 21)"
  | .nameTooLong => "File name too long (os error 36)"
  | .notText => "stream did not contain valid UTF-8"
  | .other message => message

/-- What a command leaves behind. -/
structure Output where
  code : Nat := 0
  stdout : String := ""
  stderr : String := ""
  deriving DecidableEq, Repr

namespace Output

/-- The output of a failed command. -/
def failure (message : String) : Output :=
  { code := 1, stderr := s!"error: {message}\n" }

/-- The output of a task. A fault is no answer of a task; it is reported as such. -/
def ofAttempt {α : Type} (attempt : Attempt TaskError α) (success : α → Output) : Output :=
  match attempt with
  | .ok a => success a
  | .error (.error e) => failure e.message
  | .error (.fault f) => { code := 101, stderr := (f.message?.getD "dangling number") ++ "\n" }

/-- The output of a task on the contents of a file, which may be out of reach. -/
def ofContents (contents : Except FileError String) (task : String → Output) : Output :=
  match contents with
  | .ok text => task text
  | .error e => failure e.message

/-- The output of a mutation task. -/
def ofMutation (report : Bool) (result : Task.MutateResult) : Output :=
  let reports :=
    if report then (JsonCodec.encodeList result.reports).indented 0 ++ "\n" else ""
  let confirmation :=
    if 0 < result.checked then s!"equivalent on {result.checked} random input(s)\n" else ""
  { stdout := result.program, stderr := reports ++ confirmation }

/-- The output of a catalog listing. -/
def ofCatalog (entries : List CatalogEntry) : Output :=
  let failures := entries.countP CatalogEntry.failed
  { code := if 0 < failures then 2 else 0
    stdout := String.join (entries.map fun e => e.text ++ "\n")
    stderr := if 0 < failures then s!"{failures} template(s) failed verification\n" else "" }

/-- **The output of a command**, given what reading a file yields and the source of each seed. -/
def ofCommand {γ : Type} [RandomSource γ] (read : String → Except FileError String)
    (ofSeed : UInt64 → γ) : Command → Output
  | .mutate file options report =>
    ofContents (read file) fun text =>
      ofAttempt (Task.mutate ofSeed text options) (ofMutation report)
  | .run file args =>
    ofContents (read file) fun text =>
      ofAttempt (Task.run text args) fun values =>
        { stdout := Scalar.joinTexts values ++ "\n" }
  | .catalog verify => ofCatalog (Catalog.standard.describe verify)

end Output

end Mba
