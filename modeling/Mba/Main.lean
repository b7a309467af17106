import Mba.CommandLine.Output
import Mba.Random.ChaCha

/-!
# The command line

Reads the file that a command names, and writes the output of the command. What is random comes from
the cipher.
-/

open Mba

/-- The cause of a failed read. -/
def causeOf : IO.Error → FileError
  | .noFileOrDirectory _ _ _ => .notFound
  | .inappropriateType _ 20 _ => .notDirectory
  | .inappropriateType _ 21 _ => .isDirectory
  | .invalidArgument _ 36 _ => .nameTooLong
  | .invalidArgument _ code details | .inappropriateType _ code details
  | .permissionDenied _ code details | .resourceExhausted _ code details
  | .hardwareFault code details | .noSuchThing _ code details | .otherError code details =>
    .other s!"{details} (os error {code})"
  | e => .other (toString e)

/-- The contents of a file. -/
def readContents (file : String) : IO (Except FileError String) := do
  try
    let bytes ← IO.FS.withFile file .read fun handle => handle.readBinToEnd
    match String.fromUTF8? bytes with
    | some text => return .ok text
    | none => return .error .notText
  catch e => return .error (causeOf e)

/-- The contents of the file that a command names. One that names no file looks at none. -/
def readInput : Command → IO (Except FileError String)
  | .mutate file _ _ | .run file _ => readContents file
  | .catalog _ => return .error .notFound

def main (args : List String) : IO UInt32 := do
  match Command.ofWords? args with
  | none =>
    IO.eprintln "usage: mutate FILE [options] | run FILE [args] | catalog [--verify]"
    return 2
  | some command =>
    let contents ← readInput command
    let output := Output.ofCommand (fun _ => contents) ChaCha.ofSeed command
    IO.print output.stdout
    IO.eprint output.stderr
    return output.code.toUInt32
