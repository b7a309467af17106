import Mba.Catalog.Check

/-!
# Describing a catalog

One line for each template, with the result of its sweep if that was asked for.
-/

namespace Mba

/-- A template of a catalog. -/
structure CatalogEntry where
  operator : BinaryOp
  /-- The place of the template among those of its operator. -/
  index : Nat
  formula : String
  instructions : Nat
  /-- The outcome of the sweep over 8-bit words, if there was one. -/
  sweep? : Option (Option Counterexample)
  deriving DecidableEq, Repr

namespace CatalogEntry

/-- The text with blanks behind it, up to the given width. -/
def padRight (width : Nat) (text : String) : String :=
  text ++ String.ofList (List.replicate (width - text.length) ' ')

/-- The text with blanks before it, up to the given width. -/
def padLeft (width : Nat) (text : String) : String :=
  String.ofList (List.replicate (width - text.length) ' ') ++ text

def text (e : CatalogEntry) : String :=
  let name := padRight 4 e.operator.mnemonic
  let index := padRight 2 (toString e.index)
  let count := padLeft 2 (toString e.instructions)
  let verdict := match e.sweep? with
    | none => ""
    | some none => "  ok"
    | some (some c) => s!"  FAILED ({c.message})"
  s!"{name} #{index} {count} ops  x {e.operator.symbol} y = {e.formula}{verdict}"

/-- Whether a sweep found a difference. -/
def failed (e : CatalogEntry) : Bool :=
  match e.sweep? with
  | some (some _) => true
  | some none | none => false

end CatalogEntry

/-- The templates of a catalog in the order of their operators, each swept if asked for. -/
def Catalog.describe (c : Catalog) (verify : Bool) : List CatalogEntry :=
  BinaryOp.all.flatMap fun op =>
    (c.templates op).zipIdx.map fun (t, index) =>
      { operator := op, index, formula := t.formula, instructions := t.instructionCount
        sweep? := if verify then some (t.sweep op) else none }

end Mba
