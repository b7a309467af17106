import Mba.Catalog.Basic
import Mba.Numeral

/-!
# Checking templates

A template is compared with its operator at single points, and on all pairs of 8-bit words.

Results:
* `counterexample?_eq_none_iff`: a point is in order exactly when the template gives what the
  operator gives there.
-/

namespace Mba

/-- A point at which a template and its operator differ. -/
structure Counterexample where
  x : UInt64
  y : UInt64
  expected : UInt64
  /-- What the template gives, if it gives anything. -/
  actual? : Option UInt64
  deriving DecidableEq, Repr

def Counterexample.message (c : Counterexample) : String :=
  let hex (word : UInt64) : String := Numeral.hexText word.toNat
  let actual := (c.actual?.map fun actual => s!"got {hex actual}").getD "evaluation failed"
  s!"x = {hex c.x}, y = {hex c.y}: expected {hex c.expected}, {actual}"

namespace Template

/-- What an operator gives on two words of width `w`; where it has no result, zero. -/
def expected (op : BinaryOp) (x y : UInt64) (w : Width) : UInt64 :=
  (op.eval (w.wrap x) (w.wrap y) w).getD 0

/-- The difference between a template and an operator at one point. -/
def counterexample? (t : Template) (op : BinaryOp) (x y : UInt64) (w : Width) :
    Option Counterexample :=
  let actual? := t.evaluate (w.wrap x) (w.wrap y) w
  if actual? = some (expected op x y w) then none
  else some ⟨w.wrap x, w.wrap y, expected op x y w, actual?⟩

/-- The first difference on pairs of 8-bit words, in the order of `x` and then of `y`. -/
def sweep (t : Template) (op : BinaryOp) : Option Counterexample :=
  (List.range 256).findSome? fun x =>
    (List.range 256).findSome? fun y =>
      t.counterexample? op (UInt64.ofNat x) (UInt64.ofNat y) .w8

theorem counterexample?_eq_none_iff (t : Template) (op : BinaryOp) (x y : UInt64) (w : Width) :
    t.counterexample? op x y w = none ↔
      t.evaluate (w.wrap x) (w.wrap y) w = some (expected op x y w) := by
  simp [counterexample?]

end Template

end Mba
