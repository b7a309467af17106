import Mba.Template

/-!
# Templates and truncation

A template uses only operators whose low bits depend on the low bits of their operands alone. So its
value at a narrow width is its value on whole words, cut down, and a well-shaped template always has
one.

* `low w x` is the word `x` cut to the width, as a bit vector. Two words agree up to the width
  exactly when their cuts are equal (`wrap_eq_wrap_iff`), and `low` commutes with every operator of
  a template.
* `Sound n steps` says of the steps from index `n` on what `Template.shapeError?` checks.

Results:
* `BinaryOp.wrap_onWords`, `UnaryOp.wrap_eval`: the operators of a template commute with truncation.
* `wellShaped_iff`: a template is well-shaped iff it has a step and its steps are sound.
* `evaluate_eq_wrap`: a well-shaped template computes a function of whole words, and its value at
  each width is the value of that function wrapped.
* `evaluate_narrower`: its value at a width is its value at any wider one, wrapped.
-/

namespace Mba

/-- A function of two words. -/
abbrev WordFn := UInt64 → UInt64 → UInt64

/-! ## The low bits of a word -/

namespace Width

theorem bits_le (w : Width) : w.bits ≤ 64 := by
  cases w <;> decide

/-- The low `w.bits` bits of a word. -/
def low (w : Width) (x : UInt64) : BitVec w.bits := x.toBitVec.setWidth w.bits

theorem toNat_low (w : Width) (x : UInt64) : (w.low x).toNat = x.toNat % 2 ^ w.bits :=
  BitVec.toNat_setWidth _ _

theorem low_wrap (w : Width) (x : UInt64) : w.low (w.wrap x) = w.low x := by
  apply BitVec.eq_of_toNat_eq
  rw [toNat_low, toNat_low, toNat_wrap, Nat.mod_mod]

/-- **Two words agree up to the width exactly when their low bits are equal.** -/
theorem wrap_eq_wrap_iff (w : Width) (x y : UInt64) : w.wrap x = w.wrap y ↔ w.low x = w.low y := by
  constructor
  · intro h
    rw [← low_wrap w x, h, low_wrap]
  · intro h
    apply UInt64.toNat_inj.1
    rw [toNat_wrap, toNat_wrap, ← toNat_low, ← toNat_low, h]

theorem wrap_w64 (x : UInt64) : Width.w64.wrap x = x := by
  apply UInt64.toNat_inj.1
  rw [toNat_wrap]
  exact Nat.mod_eq_of_lt x.toNat_lt

theorem wrap_wrap_of_le (w : Width) {w' : Width} (h : w.bits ≤ w'.bits) (x : UInt64) :
    w.wrap (w'.wrap x) = w.wrap x := by
  apply UInt64.toNat_inj.1
  rw [toNat_wrap, toNat_wrap, toNat_wrap, Nat.mod_mod_of_dvd _ (Nat.pow_dvd_pow 2 h)]

theorem low_add (w : Width) (x y : UInt64) : w.low (x + y) = w.low x + w.low y :=
  BitVec.setWidth_add _ _ w.bits_le

theorem low_mul (w : Width) (x y : UInt64) : w.low (x * y) = w.low x * w.low y :=
  BitVec.setWidth_mul _ _ w.bits_le

theorem low_neg (w : Width) (x : UInt64) : w.low (-x) = -w.low x :=
  BitVec.setWidth_neg_of_le w.bits_le

theorem low_sub (w : Width) (x y : UInt64) : w.low (x - y) = w.low x - w.low y := by
  rw [UInt64.sub_eq_add_neg, low_add, low_neg, BitVec.sub_eq_add_neg]

theorem low_not (w : Width) (x : UInt64) : w.low (~~~x) = ~~~w.low x :=
  BitVec.setWidth_not w.bits_le

theorem low_and (w : Width) (x y : UInt64) : w.low (x &&& y) = w.low x &&& w.low y :=
  BitVec.setWidth_and

theorem low_or (w : Width) (x y : UInt64) : w.low (x ||| y) = w.low x ||| w.low y :=
  BitVec.setWidth_or

theorem low_xor (w : Width) (x y : UInt64) : w.low (x ^^^ y) = w.low x ^^^ w.low y :=
  BitVec.setWidth_xor

end Width

/-! ## Operators of templates -/

open Template

/-- A binary operator of a template on whole words; the others are not used here. -/
def BinaryOp.onWords : BinaryOp → WordFn
  | .add, x, y => x + y
  | .sub, x, y => x - y
  | .mul, x, y => x * y
  | .and, x, y => x &&& y
  | .or, x, y => x ||| y
  | .xor, x, y => x ^^^ y
  | .div, _, _ | .rem, _, _ | .shl, _, _ | .shr, _, _ => 0

theorem BinaryOp.eval_eq_onWords {op : BinaryOp} (h : allowsBinary op = true) (x y : UInt64)
    (w : Width) : op.eval x y w = some (w.wrap (op.onWords x y)) := by
  cases op <;> simp [allowsBinary] at h <;> rfl

/-- **The low bits of a result depend on the low bits of the operands alone.** -/
theorem BinaryOp.wrap_onWords (op : BinaryOp) {w : Width} {x x' y y' : UInt64}
    (hx : w.wrap x = w.wrap x') (hy : w.wrap y = w.wrap y') :
    w.wrap (op.onWords x y) = w.wrap (op.onWords x' y') := by
  rw [Width.wrap_eq_wrap_iff] at *
  cases op <;> simp only [onWords, Width.low_add, Width.low_sub, Width.low_mul, Width.low_and,
    Width.low_or, Width.low_xor, hx, hy]

/-- An operator of a template gives on words of any width what it gives on their low bits. -/
theorem BinaryOp.eval_congr {op : BinaryOp} (h : allowsBinary op = true) {w : Width}
    {x x' y y' : UInt64} (hx : w.wrap x = w.wrap x') (hy : w.wrap y = w.wrap y') :
    op.eval x y w = op.eval x' y' w := by
  rw [eval_eq_onWords h, eval_eq_onWords h, op.wrap_onWords hx hy]

theorem UnaryOp.wrap_eval (op : UnaryOp) {w : Width} {x x' : UInt64} (hx : w.wrap x = w.wrap x') :
    op.eval x w = op.eval x' w := by
  rw [Width.wrap_eq_wrap_iff] at hx
  cases op <;> simp only [eval, Width.wrap_eq_wrap_iff, Width.low_not, Width.low_neg, hx]

theorem UnaryOp.wrap_eval_w64 (op : UnaryOp) (x : UInt64) (w : Width) :
    op.eval x w = w.wrap (op.eval x .w64) := by
  cases op <;> simp only [eval, Width.wrap_w64]

theorem Width.wrap_ofInt_w64 (w : Width) (n : Int) : w.wrap (Width.w64.ofInt n) = w.ofInt n := by
  simp only [Width.ofInt, Width.wrap_w64]

namespace Template

/-! ## The shape of a template -/

/-- An operand that step `n` may read. -/
def Operand.Ready (n : Nat) : Operand → Prop
  | .tmp i => i < n
  | .x | .y | .lit _ => True

/-- A step that may stand at index `n`. -/
structure Step.Sound (n : Nat) (step : Step) : Prop where
  allowed : step.forbidden? = none
  ready : ∀ a ∈ step.operands, a.Ready n

/-- The steps of a template from index `n` on are sound. -/
def Sound : Nat → List Step → Prop
  | _, [] => True
  | n, step :: rest => step.Sound n ∧ Sound (n + 1) rest

theorem Operand.forward?_eq_none_iff (n : Nat) (a : Operand) : a.forward? n = none ↔ a.Ready n := by
  cases a <;> simp [forward?, Ready]

theorem Step.error?_eq_none_iff (formula : String) (n : Nat) (step : Step) :
    step.error? formula n = none ↔ step.Sound n := by
  unfold error?
  cases h : step.forbidden? with
  | some operator => exact ⟨fun h' => by simp at h', fun h' => by simp [h'.allowed] at h⟩
  | none =>
    simp only [Option.map_eq_none_iff, List.findSome?_eq_none_iff, Operand.forward?_eq_none_iff]
    exact ⟨fun hready => ⟨h, hready⟩, fun hs => hs.ready⟩

theorem findSome?_error?_eq_none_iff (formula : String) (steps : List Step) (n : Nat) :
    ((steps.zipIdx n).findSome? fun (step, i) => step.error? formula i) = none ↔
      Sound n steps := by
  induction steps generalizing n with
  | nil => simp [Sound]
  | cons step rest ih =>
    simp only [List.zipIdx_cons, List.findSome?_cons, Sound, ← ih, ← Step.error?_eq_none_iff formula]
    cases step.error? formula n <;> simp

/-- **A template is well-shaped iff it has a step and its steps are sound.** -/
theorem wellShaped_iff (t : Template) : t.WellShaped ↔ t.steps ≠ [] ∧ Sound 0 t.steps := by
  unfold WellShaped shapeError?
  split
  · rename_i h
    simp only [reduceCtorEq, false_iff, not_and]
    exact fun hne => absurd (List.isEmpty_iff.1 h) hne
  · rename_i h
    rw [findSome?_error?_eq_none_iff]
    exact ⟨fun hs => ⟨fun he => h (List.isEmpty_iff.2 he), hs⟩, fun hs => hs.2⟩

theorem Step.Sound.binary {n : Nat} {op : BinaryOp} {a b : Operand}
    (h : (Step.binary op a b).Sound n) : allowsBinary op = true ∧ a.Ready n ∧ b.Ready n := by
  refine ⟨?_, h.ready a (by simp [operands]), h.ready b (by simp [operands])⟩
  have := h.allowed
  simp only [forbidden?] at this
  split at this
  · assumption
  · cases this

theorem Step.Sound.unary {n : Nat} {op : UnaryOp} {a : Operand} (h : (Step.unary op a).Sound n) :
    op = .not ∧ a.Ready n := by
  refine ⟨?_, h.ready a (by simp [operands])⟩
  have := h.allowed
  cases op <;> simp [forbidden?, allowsUnary] at this ⊢

/-! ## Templates on whole words -/

/-- An operand on whole words, given the functions that the steps so far compute. -/
def Operand.onWords (fs : List WordFn) : Operand → WordFn
  | .x => fun x _ => x
  | .y => fun _ y => y
  | .lit n => fun _ _ => Width.w64.ofInt n
  | .tmp i => fs[i]?.getD fun _ _ => 0

def Step.onWords (fs : List WordFn) : Step → WordFn
  | .unary op a => fun x y => op.eval (a.onWords fs x y) .w64
  | .binary op a b => fun x y => op.onWords (a.onWords fs x y) (b.onWords fs x y)

/-- The functions that steps compute, those so far among them. -/
def stepsOnWords : List Step → List WordFn → List WordFn
  | [], fs => fs
  | step :: rest, fs => stepsOnWords rest (fs ++ [step.onWords fs])

/-- The function of whole words that a template computes. -/
def onWords (t : Template) : WordFn :=
  (stepsOnWords t.steps []).getLast?.getD fun _ _ => 0

theorem length_stepsOnWords (steps : List Step) (fs : List WordFn) :
    (stepsOnWords steps fs).length = fs.length + steps.length := by
  induction steps generalizing fs with
  | nil => rfl
  | cons step rest ih =>
    rw [stepsOnWords, ih, List.length_append, List.length_singleton, List.length_cons]
    omega

/-! ## Evaluation at a width -/

/-- The values of functions at a point, cut to a width. -/
def valuesAt (x y : UInt64) (w : Width) (fs : List WordFn) : Array UInt64 :=
  (fs.map fun F => w.wrap (F x y)).toArray

variable {x y : UInt64} {w : Width}

theorem Operand.value?_valuesAt {fs : List WordFn} {a : Operand} (h : a.Ready fs.length) :
    a.value? x y w (valuesAt x y w fs) = some (w.wrap (a.onWords fs x y)) := by
  cases a with
  | x => rfl
  | y => rfl
  | lit n => simp [value?, onWords, Width.wrap_ofInt_w64]
  | tmp i =>
    have hi : i < fs.length := h
    simp [value?, onWords, valuesAt, hi]

theorem Step.value?_valuesAt {fs : List WordFn} {step : Step} (h : step.Sound fs.length) :
    step.value? x y w (valuesAt x y w fs) = some (w.wrap (step.onWords fs x y)) := by
  cases step with
  | unary op a =>
    rw [value?, Operand.value?_valuesAt h.unary.2, Option.map_some, op.wrap_eval (w.wrap_wrap _),
      op.wrap_eval_w64]
    rfl
  | binary op a b =>
    obtain ⟨hop, ha, hb⟩ := h.binary
    rw [value?, Operand.value?_valuesAt ha, Operand.value?_valuesAt hb, Option.bind_some,
      Option.bind_some, BinaryOp.eval_congr hop (w.wrap_wrap _) (w.wrap_wrap _),
      BinaryOp.eval_eq_onWords hop]
    rfl

theorem temps?_valuesAt {steps : List Step} {fs : List WordFn} (h : Sound fs.length steps) :
    temps? x y w steps (valuesAt x y w fs) = some (valuesAt x y w (stepsOnWords steps fs)) := by
  induction steps generalizing fs with
  | nil => rfl
  | cons step rest ih =>
    have hpush : (valuesAt x y w fs).push (w.wrap (step.onWords fs x y)) =
        valuesAt x y w (fs ++ [step.onWords fs]) := by
      simp [valuesAt]
    have hrest : Sound (fs ++ [step.onWords fs]).length rest := by
      rw [List.length_append]
      exact h.2
    rw [temps?, Step.value?_valuesAt h.1, Option.bind_some, hpush, ih hrest, stepsOnWords]

/-- **A well-shaped template always has a value**: at each width, the low bits of its value on whole
words. -/
theorem evaluate_eq_wrap {t : Template} (h : t.WellShaped) (x y : UInt64) (w : Width) :
    t.evaluate x y w = some (w.wrap (t.onWords x y)) := by
  obtain ⟨hne, hsound⟩ := t.wellShaped_iff.1 h
  have htemps : temps? x y w t.steps (valuesAt x y w []) =
      some (valuesAt x y w (stepsOnWords t.steps [])) := temps?_valuesAt hsound
  have hlast : stepsOnWords t.steps [] ≠ [] := by
    rw [← List.length_pos_iff, length_stepsOnWords]
    have := List.length_pos_iff.2 hne
    omega
  rw [evaluate, show (#[] : Array UInt64) = valuesAt x y w [] from rfl, htemps, Option.bind_some,
    onWords, List.getLast?_eq_some_getLast hlast]
  simp [valuesAt, List.getLast?_eq_some_getLast hlast]

/-- A template wraps its inputs. -/
theorem evaluate_wrap (t : Template) (x y : UInt64) (w : Width) :
    t.evaluate (w.wrap x) (w.wrap y) w = t.evaluate x y w := by
  have hvalue : ∀ temps (step : Step),
      step.value? (w.wrap x) (w.wrap y) w temps = step.value? x y w temps := by
    have hoperand : ∀ temps (a : Operand),
        a.value? (w.wrap x) (w.wrap y) w temps = a.value? x y w temps := by
      intro temps a
      cases a <;> simp [Operand.value?, Width.wrap_wrap]
    intro temps step
    cases step <;> simp only [Step.value?, hoperand]
  have htemps : ∀ steps temps,
      temps? (w.wrap x) (w.wrap y) w steps temps = temps? x y w steps temps := by
    intro steps
    induction steps with
    | nil => intro temps; rfl
    | cons step rest ih => intro temps; simp only [temps?, hvalue, ih]
  rw [evaluate, evaluate, htemps]

/-! ## Two widths -/

/-- **Evaluation commutes with truncation.** At a narrower width a well-shaped template has the
value that it has at a wider one, wrapped. So on words on which it computes an operator at the wider
width, it computes it at the narrower one. -/
theorem evaluate_narrower {t : Template} (h : t.WellShaped) {w w' : Width} (hw : w.bits ≤ w'.bits)
    (x y : UInt64) :
    (∃ r, t.evaluate x y w' = some r ∧ t.evaluate x y w = some (w.wrap r)) ∧
      ∀ op, allowsBinary op = true →
        t.evaluate x y w' = op.eval x y w' → t.evaluate x y w = op.eval x y w := by
  constructor
  · refine ⟨_, evaluate_eq_wrap h x y w', ?_⟩
    rw [evaluate_eq_wrap h, w.wrap_wrap_of_le hw]
  · intro op hop heq
    rw [evaluate_eq_wrap h, BinaryOp.eval_eq_onWords hop, Option.some.injEq] at heq
    rw [evaluate_eq_wrap h, BinaryOp.eval_eq_onWords hop, ← w.wrap_wrap_of_le hw, heq,
      w.wrap_wrap_of_le hw]

/-- A template with a product and a literal, which computes no operator, and one that computes a
difference. -/
theorem evaluate_narrower_words :
    let scaled : Template := ⟨"x * y + 300", [.binary .mul .x .y, .binary .add (.tmp 0) (.lit 300)]⟩
    let difference : Template := ⟨"x + ~y + 1",
      [.unary .not .y, .binary .add .x (.tmp 0), .binary .add (.tmp 1) (.lit 1)]⟩
    (∃ r, scaled.evaluate 0x10203 0x405 .w32 = some r ∧
        scaled.evaluate 0x10203 0x405 .w8 = some (Width.w8.wrap r)) ∧
      difference.evaluate 3 5 .w16 = BinaryOp.sub.eval 3 5 .w16 := by
  intro scaled difference
  have hscaled : scaled.WellShaped := by decide
  have hdifference : difference.WellShaped := by decide
  have hbyte : Width.w8.bits ≤ Width.w32.bits := by decide
  have hhalf : Width.w16.bits ≤ Width.w64.bits := by decide
  exact ⟨(evaluate_narrower hscaled hbyte 0x10203 0x405).1,
    (evaluate_narrower hdifference hhalf 3 5).2 .sub rfl (by decide)⟩

end Template

end Mba
