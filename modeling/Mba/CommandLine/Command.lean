import Mba.Numeral
import Mba.Task

/-!
# Commands

The words of a command line as a command: `mutate FILE` with options in any order, `run FILE` with
the arguments of the program, or `catalog`. An option takes its value behind `=` or as the next
word, and comes at most once. A word that starts with `-` is an option, unless it is `-` alone or
comes after `--`; only behind the file of `run` all words are arguments.

Out of scope: the texts of help and of usage errors.
-/

namespace Mba

/-- What a command line asks for. -/
inductive Command
  | mutate (file : String) (options : Task.MutateOptions) (report : Bool)
  | run (file : String) (args : List String)
  | catalog (verify : Bool)

namespace Command

/-- A word of a command line, by its form. -/
inductive Word
  /-- The word `--`, which ends the options. -/
  | escape
  | option (name : String) (value? : Option String)
  | plain (text : String)

/-- Splits an option at its first `=`. -/
def Word.ofOption (body : List Char) : Word :=
  let name := String.ofList (body.takeWhile (· != '='))
  match body.dropWhile (· != '=') with
  | [] => .option name none
  | _ :: value => .option name (some (String.ofList value))

def Word.ofText (text : String) : Word :=
  match text.toList with
  | ['-', '-'] => .escape
  | '-' :: '-' :: body => Word.ofOption body
  | '-' :: c :: rest => .option (String.ofList ('-' :: c :: rest)) none
  | _ => .plain text

/-- Sets a field that must not be set twice. -/
def setOnce {α : Type} (current? : Option α) (a : α) : Option (Option α) :=
  if current?.isSome then none else some (some a)

/-- A file name, which must not be empty. -/
def fileName? (text : String) : Option String :=
  if text.isEmpty then none else some text

/-! ## `mutate` -/

/-- The parts of a `mutate` command found so far. -/
structure MutateWords where
  file? : Option String := none
  seed? : Option Nat := none
  rounds? : Option Nat := none
  maxPicks? : Option Nat := none
  check? : Option Nat := none
  report? : Option Unit := none

namespace MutateWords

/-- Enters the file; a command has one only. -/
def addFile (found : MutateWords) (text : String) : Option MutateWords := do
  let file? ← setOnce found.file? (← fileName? text)
  return { found with file? }

/-- Enters an option with a value, which must be a number of at most 64 bits. -/
def addOption (found : MutateWords) (name value : String) : Option MutateWords := do
  let n ← Numeral.decimal? value.toList
  match name with
  | "seed" => return { found with seed? := ← setOnce found.seed? n }
  | "rounds" => return { found with rounds? := ← setOnce found.rounds? n }
  | "max-mutations" => return { found with maxPicks? := ← setOnce found.maxPicks? n }
  | "check" => return { found with check? := ← setOnce found.check? n }
  | _ => none

/-- Enters words in order. Behind `--` all words are file names. -/
def addWords (found : MutateWords) (escaped : Bool) : List String → Option MutateWords
  | [] => some found
  | word :: rest =>
    if escaped then (found.addFile word).bind fun found => found.addWords true rest
    else
      match Word.ofText word with
      | .escape => found.addWords true rest
      | .plain text => (found.addFile text).bind fun found => found.addWords false rest
      | .option "report" none =>
        (setOnce found.report? ()).bind fun report? =>
          { found with report? }.addWords false rest
      | .option name (some value) =>
        (found.addOption name value).bind fun found => found.addWords false rest
      | .option name none =>
        match rest with
        | [] => none
        | value :: rest =>
          match Word.ofText value with
          | .plain value =>
            (found.addOption name value).bind fun found => found.addWords false rest
          | .escape | .option _ _ => none

/-- The command, if its file is there. -/
def command? (found : MutateWords) : Option Command :=
  let standard : Task.MutateOptions := {}
  found.file?.map fun file =>
    .mutate file
      { seed := (found.seed?.map UInt64.ofNat).getD standard.seed
        rounds := found.rounds?.getD standard.rounds
        check := found.check?.getD standard.check
        config := { standard.config with
          maxPicks := found.maxPicks?.getD standard.config.maxPicks } }
      found.report?.isSome

end MutateWords

/-! ## `run` and `catalog` -/

/-- The file of a `run` command and the arguments behind it. A `--` right before the file or right
behind it is left out. -/
def runWords? : List String → Option Command
  | "--" :: file :: args => (fileName? file).map fun file => .run file args
  | file :: "--" :: args => (fileName? file).bind fun file =>
    match Word.ofText file with
    | .plain file => some (.run file args)
    | .escape | .option _ _ => none
  | file :: args => (fileName? file).bind fun file =>
    match Word.ofText file with
    | .plain file => some (.run file args)
    | .escape | .option _ _ => none
  | [] => none

/-- The words of a `catalog` command. -/
def catalogWords? : List String → Option Command
  | [] | ["--"] => some (.catalog false)
  | ["--verify"] | ["--verify", "--"] => some (.catalog true)
  | _ => none

/-- **The command that the words of a command line ask for**; `none` if they ask for nothing
sensible. -/
def ofWords? : List String → Option Command
  | "mutate" :: words => (MutateWords.addWords {} false words).bind MutateWords.command?
  | "run" :: words => runWords? words
  | "catalog" :: words => catalogWords? words
  | _ => none

end Command

end Mba
