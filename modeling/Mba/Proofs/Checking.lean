import Mba.Catalog.Check
import Mba.Proofs.Integers
import Mba.Proofs.Linear

/-!
# What checking a linear template shows

A linear template is determined by its values at the four corners. So checking it there, at some
width, is checking it at all points of that width; and checked there on whole words it is right at
every width.

The sweep over the pairs of 8-bit words meets the corners of width 8, and there it tells values
apart up to a multiple of `2 ^ 8` only. What this leaves open depends on the *exact* values of the
template at the corners, computed on integers without any wrapping. The supported operators have
`-2` to `1` there. An exact value from `-254` to `253` differs from these by less than `2 ^ 8`, so
the sweep misses nothing. Literals of 64 bits can take the exact values further, and then it may.

* `t.onInts m n` is the value of the template `t` on the integers `m` and `n`.

Results:
* `forall_counterexample?_iff`: at any width, the corners decide about all points.
* `counterexample?_iff_corners`: the corners on whole words decide about all points of all widths.
* `sweep_eq_none_iff_corners`: the sweep decides about the corners of width 8.
* `onWords_ofInt`: a template gives on words what it gives on integers.
* `sweep_eq_none_iff`: the sweep decides about all points of all widths, if the exact values at the
  corners are small.
* `sweep_misses_literal`: in general it does not.
-/

namespace Mba

/-! ## Corners of integers -/

/-- The integer with all bits set, or with none. -/
def WordFn.cornerInt (a : Bool) : Int := if a then -1 else 0

open WordFn

theorem WordFn.ofInt_cornerInt (a : Bool) : Width.w64.ofInt (cornerInt a) = corner a := by
  cases a <;> rfl

namespace BinaryOp

variable {op : BinaryOp}

theorem onWords_corner (hop : Template.allowsBinary op = true) (a b : Bool) :
    op.onWords (corner a) (corner b) =
      Width.w64.ofInt (op.onInts .w64 (cornerInt a) (cornerInt b)) := by
  rw [← ofInt_cornerInt, ← ofInt_cornerInt, ← Width.standsFor_w64_iff]
  exact standsFor_onWords hop (Width.standsFor_ofInt _ _) (Width.standsFor_ofInt _ _)

/-- The supported operators are small at the corners. -/
theorem onInts_corner_bounds (hop : op.isSupported = true) (a b : Bool) :
    -2 ≤ op.onInts .w64 (cornerInt a) (cornerInt b) ∧
      op.onInts .w64 (cornerInt a) (cornerInt b) ≤ 1 := by
  cases op <;> simp only [isSupported, Bool.false_eq_true] at hop <;>
    cases a <;> cases b <;> decide +kernel

end BinaryOp

namespace Template

variable {t : Template} {op : BinaryOp}

/-! ## Points -/

/-- A point is in order exactly when template and operator, as functions of whole words, agree there
up to the width. -/
theorem counterexample?_eq_none_iff_wrap (hshape : t.WellShaped) (hop : allowsBinary op = true)
    (x y : UInt64) (w : Width) :
    t.counterexample? op x y w = none ↔ w.wrap (t.onWords x y) = w.wrap (op.onWords x y) := by
  rw [counterexample?_eq_none_iff, evaluate_wrap, expected,
    BinaryOp.eval_congr hop (w.wrap_wrap x) (w.wrap_wrap y), BinaryOp.eval_eq_onWords hop,
    evaluate_eq_wrap hshape, Option.getD_some, Option.some.injEq]

/-- **At any width, the corners decide about all points.** -/
theorem forall_counterexample?_iff (hshape : t.WellShaped) (hlinear : t.isLinear = true)
    (hop : op.isSupported = true) (w : Width) :
    (∀ x y, t.counterexample? op x y w = none) ↔
      ∀ a b, t.counterexample? op (corner a) (corner b) w = none := by
  simp only [counterexample?_eq_none_iff_wrap hshape (allowsBinary_of_isSupported hop)]
  refine ⟨fun h a b => h _ _, fun h => ?_⟩
  exact (isLinear_onWords hshape hlinear).wrap_eq_of_corners (BinaryOp.isLinear_onWords hop) h

/-- A point that is in order on whole words is in order at every width. -/
theorem counterexample?_of_w64 (hshape : t.WellShaped) (hop : allowsBinary op = true)
    {x y : UInt64} (h : t.counterexample? op x y .w64 = none) (w : Width) :
    t.counterexample? op x y w = none := by
  rw [counterexample?_eq_none_iff_wrap hshape hop, Width.wrap_w64, Width.wrap_w64] at h
  rw [counterexample?_eq_none_iff_wrap hshape hop, h]

/-- **The corners on whole words decide about all points of all widths.** -/
theorem counterexample?_iff_corners (hshape : t.WellShaped) (hlinear : t.isLinear = true)
    (hop : op.isSupported = true) :
    (∀ a b, t.counterexample? op (corner a) (corner b) .w64 = none) ↔
      ∀ x y w, t.counterexample? op x y w = none := by
  refine ⟨fun h x y => ?_, fun h a b => h _ _ _⟩
  exact counterexample?_of_w64 hshape (allowsBinary_of_isSupported hop)
    ((forall_counterexample?_iff hshape hlinear hop .w64).2 h x y)

/-- The product of the two literals vanishes on whole words. -/
theorem counterexample?_iff_corners_xor :
    let t : Template := ⟨"(x | y) - (x & y) + 0x4000000000000000*4",
      [.binary .or .x .y, .binary .and .x .y, .binary .sub (.tmp 0) (.tmp 1),
        .binary .mul (.lit 0x4000000000000000) (.lit 4), .binary .add (.tmp 2) (.tmp 3)]⟩
    (∀ a b, t.counterexample? .xor (corner a) (corner b) .w64 = none) ∧
      t.counterexample? .xor 6 3 .w32 = none := by
  intro t
  have hcorners : ∀ a b, t.counterexample? .xor (corner a) (corner b) .w64 = none := by decide
  exact ⟨hcorners, (counterexample?_iff_corners (by decide) (by decide) rfl).1 hcorners 6 3 .w32⟩

/-! ## The sweep -/

theorem counterexample?_wrap (t : Template) (op : BinaryOp) (x y : UInt64) (w : Width) :
    t.counterexample? op (w.wrap x) (w.wrap y) w = t.counterexample? op x y w := by
  unfold counterexample? expected
  rw [Width.wrap_wrap, Width.wrap_wrap]

/-- The sweep finds nothing exactly when all points of width 8 are in order. -/
theorem sweep_eq_none_iff_forall (t : Template) (op : BinaryOp) :
    t.sweep op = none ↔ ∀ x y, t.counterexample? op x y .w8 = none := by
  simp only [sweep, List.findSome?_eq_none_iff, List.mem_range]
  refine ⟨fun h x y => ?_, fun h x _ y _ => h _ _⟩
  have hword (z : UInt64) : UInt64.ofNat (z.toNat % 256) = Width.w8.wrap z := by
    rw [← UInt64.ofNat_toNat (x := Width.w8.wrap z), Width.toNat_wrap]
    rfl
  have hbyte (z : UInt64) : z.toNat % 256 < 256 := Nat.mod_lt _ (by decide)
  have hxy := h _ (hbyte x) _ (hbyte y)
  rwa [hword, hword, counterexample?_wrap] at hxy

/-- **The sweep decides about the corners of width 8.** -/
theorem sweep_eq_none_iff_corners (hshape : t.WellShaped) (hlinear : t.isLinear = true)
    (hop : op.isSupported = true) :
    t.sweep op = none ↔ ∀ a b, t.counterexample? op (corner a) (corner b) .w8 = none := by
  rw [sweep_eq_none_iff_forall, forall_counterexample?_iff hshape hlinear hop]

/-! ## Templates on integers -/

/-- The value of an operand on integers, given the values of the steps so far. -/
def Operand.onInts (m n : Int) (values : List Int) : Operand → Int
  | .x => m
  | .y => n
  | .lit k => k
  | .tmp i => values[i]?.getD 0

/-- The value of a step on integers. The operators of a template do not look at the width. -/
def Step.onInts (m n : Int) (values : List Int) : Step → Int
  | .unary op a => op.onInts (a.onInts m n values)
  | .binary op a b => op.onInts .w64 (a.onInts m n values) (b.onInts m n values)

/-- The values of steps on integers, those so far among them. -/
def stepsOnInts (m n : Int) : List Step → List Int → List Int
  | [], values => values
  | step :: rest, values => stepsOnInts m n rest (values ++ [step.onInts m n values])

/-- The value of a template on integers. -/
def onInts (t : Template) (m n : Int) : Int :=
  (stepsOnInts m n t.steps []).getLast?.getD 0

/-- At the words of two integers the functions that steps compute have the words of the values on
the integers. -/
def Exact (m n : Int) (fs : List WordFn) (values : List Int) : Prop :=
  fs.map (fun F => F (Width.w64.ofInt m) (Width.w64.ofInt n)) = values.map Width.w64.ofInt

section Exact

variable {m n : Int} {fs : List WordFn} {values : List Int}

theorem Exact.getElem? (h : Exact m n fs values) (i : Nat) :
    (fs[i]?.getD fun _ _ => 0) (Width.w64.ofInt m) (Width.w64.ofInt n) =
      Width.w64.ofInt (values[i]?.getD 0) := by
  have hi := congrArg (fun words => words[i]?) h
  simp only [List.getElem?_map] at hi
  cases hF : fs[i]? <;> cases hvalue : values[i]? <;>
    simp only [hF, hvalue, Option.map_none, Option.map_some, reduceCtorEq, Option.some.injEq] at hi
  · rfl
  · exact hi

theorem Exact.operand (h : Exact m n fs values) (a : Operand) :
    a.onWords fs (Width.w64.ofInt m) (Width.w64.ofInt n) =
      Width.w64.ofInt (a.onInts m n values) := by
  cases a with
  | x => rfl
  | y => rfl
  | lit k => rfl
  | tmp i => exact h.getElem? i

theorem Exact.step (h : Exact m n fs values) {step : Step} (hsound : step.Sound fs.length) :
    step.onWords fs (Width.w64.ofInt m) (Width.w64.ofInt n) =
      Width.w64.ofInt (step.onInts m n values) := by
  apply Width.standsFor_w64_iff.1
  cases step with
  | unary op a =>
    show Width.w64.StandsFor (op.eval (a.onWords fs _ _) .w64) _
    rw [h.operand]
    exact op.standsFor_eval (Width.standsFor_ofInt _ _)
  | binary op a b =>
    show Width.w64.StandsFor (op.onWords (a.onWords fs _ _) (b.onWords fs _ _)) _
    rw [h.operand, h.operand]
    exact BinaryOp.standsFor_onWords hsound.binary.1 (Width.standsFor_ofInt _ _)
      (Width.standsFor_ofInt _ _)

theorem Exact.steps {steps : List Step} (h : Exact m n fs values) (hsound : Sound fs.length steps) :
    Exact m n (stepsOnWords steps fs) (stepsOnInts m n steps values) := by
  induction steps generalizing fs values with
  | nil => exact h
  | cons step rest ih =>
    refine ih ?_ ?_
    · rw [Exact, List.map_append, List.map_append, h, List.map_singleton, List.map_singleton,
        h.step hsound.1]
    · rw [List.length_append]
      exact hsound.2

end Exact

/-- **A template gives on words what it gives on integers**, cut to whole words. -/
theorem onWords_ofInt (hshape : t.WellShaped) (m n : Int) :
    t.onWords (Width.w64.ofInt m) (Width.w64.ofInt n) = Width.w64.ofInt (t.onInts m n) := by
  have h : Exact m n (stepsOnWords t.steps []) (stepsOnInts m n t.steps []) :=
    Exact.steps rfl (t.wellShaped_iff.1 hshape).2
  have hlength : (stepsOnWords t.steps []).length = (stepsOnInts m n t.steps []).length := by
    simpa only [List.length_map] using congrArg List.length h
  rw [onWords, onInts, List.getLast?_eq_getElem?, List.getLast?_eq_getElem?, h.getElem?, hlength]

/-! ## The sweep and the exact values at the corners -/

theorem onWords_corner (hshape : t.WellShaped) (a b : Bool) :
    t.onWords (corner a) (corner b) =
      Width.w64.ofInt (t.onInts (cornerInt a) (cornerInt b)) := by
  rw [← ofInt_cornerInt, ← ofInt_cornerInt, onWords_ofInt hshape]

theorem eq_of_ofInt_w8 {m n : Int} (h : Width.w8.ofInt m = Width.w8.ofInt n)
    (hm : -254 ≤ m ∧ m ≤ 253) (hn : -2 ≤ n ∧ n ≤ 1) : m = n := by
  have hmod : m % 2 ^ Width.w8.bits = n % 2 ^ Width.w8.bits := by
    rw [← Width.toNat_ofInt, ← Width.toNat_ofInt, h]
  simp only [Width.bits] at hmod
  omega

/-- **If the exact values at the corners are small, the sweep decides about all points of all
widths.** -/
theorem sweep_eq_none_iff (hshape : t.WellShaped) (hlinear : t.isLinear = true)
    (hop : op.isSupported = true)
    (hsmall : ∀ a b, -254 ≤ t.onInts (cornerInt a) (cornerInt b) ∧
      t.onInts (cornerInt a) (cornerInt b) ≤ 253) :
    t.sweep op = none ↔ ∀ x y w, t.counterexample? op x y w = none := by
  have hallows := allowsBinary_of_isSupported hop
  rw [sweep_eq_none_iff_corners hshape hlinear hop]
  refine ⟨fun h x y => ?_, fun h a b => h _ _ _⟩
  -- the corners on whole words are in order because the exact values there are the operator's
  refine counterexample?_of_w64 hshape hallows
    ((forall_counterexample?_iff hshape hlinear hop .w64).2 (fun a b => ?_) x y)
  have hbyte := (counterexample?_eq_none_iff_wrap hshape hallows _ _ _).1 (h a b)
  rw [onWords_corner hshape, BinaryOp.onWords_corner hallows, Width.wrap_ofInt_w64,
    Width.wrap_ofInt_w64] at hbyte
  have hexact := eq_of_ofInt_w8 hbyte (hsmall a b) (BinaryOp.onInts_corner_bounds hop a b)
  rw [counterexample?_eq_none_iff_wrap hshape hallows, onWords_corner hshape,
    BinaryOp.onWords_corner hallows, hexact]

theorem sweep_eq_none_iff_or :
    let t : Template := ⟨"x + y - (x & y)",
      [.binary .add .x .y, .binary .and .x .y, .binary .sub (.tmp 0) (.tmp 1)]⟩
    t.sweep .or = none ∧ t.counterexample? .or 0x10200 0x201 .w32 = none := by
  intro t
  have hsweep : t.sweep .or = none :=
    (sweep_eq_none_iff_corners (by decide) (by decide) rfl).2 (by decide)
  have hall := (sweep_eq_none_iff (t := t) (by decide) (by decide) rfl (by decide +kernel)).1 hsweep
  exact ⟨hsweep, hall 0x10200 0x201 .w32⟩

/-- **The sweep may miss a literal of more than eight bits.** Where all bits of both words are set
the first template has the exact value `254` and its operator has `-2`; where those of `y` alone are
set the second has `-255` and its operator has `1`. So the bounds are the widest. -/
theorem sweep_misses_literal :
    let above : Template := ⟨"x + y - 256*(x & y)",
      [.binary .add .x .y, .binary .and .x .y, .binary .mul (.lit 256) (.tmp 1),
        .binary .sub (.tmp 0) (.tmp 2)]⟩
    let below : Template := ⟨"x - y + 256*(~x & y)",
      [.binary .sub .x .y, .unary .not .x, .binary .and (.tmp 1) .y,
        .binary .mul (.lit 256) (.tmp 2), .binary .add (.tmp 0) (.tmp 3)]⟩
    (above.WellShaped ∧ above.isLinear = true ∧ above.onInts (-1) (-1) = 254 ∧
        above.sweep .add = none ∧
        above.counterexample? .add 1 1 .w16 = some ⟨1, 1, 2, some 0xff02⟩) ∧
      below.WellShaped ∧ below.isLinear = true ∧ below.onInts 0 (-1) = -255 ∧
        below.sweep .sub = none ∧
        below.counterexample? .sub 0 1 .w16 = some ⟨0, 1, 0xffff, some 0xff⟩ := by
  intro above below
  have habove : above.sweep .add = none :=
    (sweep_eq_none_iff_corners (by decide) (by decide) rfl).2 (by decide)
  have hbelow : below.sweep .sub = none :=
    (sweep_eq_none_iff_corners (by decide) (by decide) rfl).2 (by decide)
  exact ⟨⟨by decide, by decide, by decide, habove, by decide⟩,
    by decide, by decide, by decide +kernel, hbelow, by decide⟩

end Template

end Mba
