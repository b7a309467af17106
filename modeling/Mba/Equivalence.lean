import Mba.Program.Run
import Mba.Random.Source

/-!
# Equivalence on recorded cases

The behaviour of a program is recorded on random inputs, and compared with its behaviour later on.

Results:
* `check_eq_none_iff`: a check passes exactly when the program behaves as recorded in every case.
-/

namespace Mba

/-- How a run ends. -/
inductive Behaviour
  | outputs (values : List Scalar)
  | failure (error : EvalError)
  deriving DecidableEq, Repr

/-- Values with commas between them. -/
def Scalar.joinTexts (values : List Scalar) : String :=
  ", ".intercalate (values.map Scalar.text)

def Behaviour.text : Behaviour → String
  | .outputs values => s!"({Scalar.joinTexts values})"
  | .failure error => s!"error `{error.message}`"

/-- Inputs and the behaviour recorded on them. -/
structure Case where
  inputs : List Scalar
  expected : Behaviour
  deriving DecidableEq, Repr

/-- A case and the behaviour that differs from the recorded one. -/
structure Mismatch where
  case : Case
  actual : Behaviour
  deriving DecidableEq, Repr

def Mismatch.message (m : Mismatch) : String :=
  s!"on ({Scalar.joinTexts m.case.inputs}) expected {m.case.expected.text}, got {m.actual.text}"

namespace Store

/-- How a program behaves on the given arguments. -/
def behaviour (s : Store) (p : Program) (args : List Scalar) : Except Fault Behaviour :=
  (s.run p args).answer.map fun
    | .ok values => .outputs values
    | .error e => .failure e

/-- The first of the cases in which a program does not behave as recorded. -/
def check (s : Store) (p : Program) : List Case → Except Fault (Option Mismatch)
  | [] => .ok none
  | case :: rest => do
    let actual ← s.behaviour p case.inputs
    if actual = case.expected then s.check p rest else .ok (some ⟨case, actual⟩)

/-- **A check passes exactly when the program behaves as recorded in every case.** -/
theorem check_eq_none_iff (s : Store) (p : Program) (cases : List Case) :
    s.check p cases = .ok none ↔
      ∀ case ∈ cases, s.behaviour p case.inputs = .ok case.expected := by
  induction cases with
  | nil => simp [check]
  | cons case rest ih =>
    cases h : s.behaviour p case.inputs with
    | error f => simp [check, h, bind, Except.bind]
    | ok actual =>
      by_cases hactual : actual = case.expected
      · simp [check, h, bind, Except.bind, hactual, ih]
      · simp [check, h, bind, Except.bind, hactual]

end Store

section Random

variable {γ : Type} [RandomSource γ]

/-- A random double in `[0, 1)`: 53 random bits after the point. -/
def Double.random (source : γ) : Double × γ :=
  let (word, source) := RandomSource.next64 source
  (ofMagnitude false (nearest ((word >>> 11).toNat * 2 ^ 1021) 1), source)

/-- A random value of the given type. -/
def Scalar.random (ty : Ty) (source : γ) : Scalar × γ :=
  match ty with
  | .int w =>
    let (word, source) := RandomSource.next64 source
    (.int w (w.wrap word), source)
  | .double =>
    let (x, source) := Double.random source
    (.double x, source)
  | .bool =>
    let (b, source) := RandomSource.bool source
    (.bool b, source)

/-- A random value of each type, in order. -/
def Scalar.randomList : List Ty → γ → List Scalar × γ
  | [], source => ([], source)
  | ty :: rest, source =>
    let (x, source) := Scalar.random ty source
    let (xs, source) := Scalar.randomList rest source
    (x :: xs, source)

namespace Store

/-- Records the behaviour of a program on inputs of the given types, as many times as told. -/
def recordFor (s : Store) (p : Program) (tys : List Ty) :
    Nat → γ → Except Fault (List Case × γ)
  | 0, source => .ok ([], source)
  | count + 1, source => do
    let (inputs, source) := Scalar.randomList tys source
    let expected ← s.behaviour p inputs
    let (cases, source) ← s.recordFor p tys count source
    return (⟨inputs, expected⟩ :: cases, source)

/-- Records the behaviour of a program on random inputs of its input types. -/
def record (s : Store) (p : Program) (count : Nat) (source : γ) :
    Except Fault (List Case × γ) := do
  let tys ← p.inputTys s
  s.recordFor p tys count source

end Store

end Random

end Mba
