import Mba.Mutation.Eligibility
import Mba.Proofs.Truncation

/-!
# Linear mixed Boolean-arithmetic

A bitwise function of two words is a truth table applied to every bit. Each table is a sum of
*minterms*, the words `x &&& y`, `x &&& ~~~y`, `~~~x &&& y` and `~~~x &&& ~~~y`, which have no bit
in common. The four of them add up to `-1`, so a literal is a multiple of their sum. Hence a
template that only adds, subtracts and scales bitwise functions is `combine c`: the sum of the
minterms, each with a coefficient of its own.

At a *corner*, where each input has all bits set or none, a single minterm is left. So the values at
the four corners are the negated coefficients, and they determine the function.

Results:
* `Follows.eq_combine`: a bitwise function is a sum of minterms.
* `IsLinear.wrap_eq_of_corners`: two linear functions that agree up to a width at the corners agree
  up to it everywhere.
* `isLinear_onWords`: a well-shaped linear template computes a linear function of whole words.
* `evaluate_of_corners`: a linear template that computes an operator at the corners, on whole words,
  computes it everywhere and at every width.
-/

namespace Mba

namespace WordFn

/-! ## Minterms -/

/-- The word if its mark is set, and its complement if not. -/
def literal (a : Bool) (x : UInt64) : UInt64 := if a then x else ~~~x

/-- The bits at which `x` is `a` and `y` is `b`. -/
def minterm (a b : Bool) : WordFn := fun x y => literal a x &&& literal b y

/-- The sum of the four minterms, each with its coefficient. -/
def combine (c : Bool → Bool → UInt64) : WordFn := fun x y =>
  c true true * minterm true true x y + c true false * minterm true false x y +
    c false true * minterm false true x y + c false false * minterm false false x y

/-- The word with all bits set, or with none. -/
def corner (a : Bool) : UInt64 := if a then -1 else 0

/-- Bit `i` of `u` is what the truth table gives for bit `i` of `x` and of `y`. -/
def Follows (table : Bool → Bool → Bool) (x y u : UInt64) : Prop :=
  ∀ i (h : i < 64), u.toBitVec[i] = table x.toBitVec[i] y.toBitVec[i]

theorem Follows.left (x y : UInt64) : Follows (fun a _ => a) x y x := fun _ _ => rfl

theorem Follows.right (x y : UInt64) : Follows (fun _ b => b) x y y := fun _ _ => rfl

theorem Follows.not {table : Bool → Bool → Bool} {x y u : UInt64} (h : Follows table x y u) :
    Follows (fun a b => !table a b) x y (~~~u) := fun i hi => by
  simp [← h i hi]

theorem Follows.and {f g : Bool → Bool → Bool} {x y u v : UInt64} (hu : Follows f x y u)
    (hv : Follows g x y v) : Follows (fun a b => f a b && g a b) x y (u &&& v) := fun i hi => by
  simp [← hu i hi, ← hv i hi]

theorem Follows.or {f g : Bool → Bool → Bool} {x y u v : UInt64} (hu : Follows f x y u)
    (hv : Follows g x y v) : Follows (fun a b => f a b || g a b) x y (u ||| v) := fun i hi => by
  simp [← hu i hi, ← hv i hi]

theorem Follows.xor {f g : Bool → Bool → Bool} {x y u v : UInt64} (hu : Follows f x y u)
    (hv : Follows g x y v) : Follows (fun a b => f a b ^^ g a b) x y (u ^^^ v) := fun i hi => by
  simp [← hu i hi, ← hv i hi]

/-- A word is the sum of its part inside a mask and its part outside. -/
theorem add_parts (u m : UInt64) : (u &&& m) + (u &&& ~~~m) = u := by
  apply UInt64.toBitVec_inj.1
  have hdisjoint : (u.toBitVec &&& m.toBitVec) &&& (u.toBitVec &&& ~~~m.toBitVec) = 0#64 := by
    ext i
    simp only [BitVec.getElem_and, BitVec.getElem_not, BitVec.getElem_zero]
    cases u.toBitVec[i] <;> cases m.toBitVec[i] <;> rfl
  have hjoin : (u.toBitVec &&& m.toBitVec) ||| (u.toBitVec &&& ~~~m.toBitVec) = u.toBitVec := by
    ext i
    simp only [BitVec.getElem_or, BitVec.getElem_and, BitVec.getElem_not]
    cases u.toBitVec[i] <;> cases m.toBitVec[i] <;> rfl
  have hsum := BitVec.add_eq_or_of_and_eq_zero _ _ hdisjoint
  rw [hjoin] at hsum
  exact hsum

/-- A word is the sum of its parts on the four minterms. -/
theorem sum_minterms (u x y : UInt64) :
    (u &&& minterm true true x y) + (u &&& minterm true false x y) +
      (u &&& minterm false true x y) + (u &&& minterm false false x y) = u := by
  have h1 := add_parts (u &&& x) y
  have h2 := add_parts (u &&& ~~~x) y
  have h3 := add_parts u x
  simp only [minterm, literal, if_true, Bool.false_eq_true, if_false, ← UInt64.and_assoc]
  rw [h1, UInt64.add_assoc, h2, h3]

theorem getElem_literal (a : Bool) (x : UInt64) (i : Nat) (hi : i < 64) :
    (literal a x).toBitVec[i] = (x.toBitVec[i] == a) := by
  cases a <;> simp [literal]

theorem getElem_minterm (a b : Bool) (x y : UInt64) (i : Nat) (hi : i < 64) :
    (minterm a b x y).toBitVec[i] = (x.toBitVec[i] == a && y.toBitVec[i] == b) := by
  rw [← getElem_literal, ← getElem_literal, minterm, UInt64.toBitVec_and, BitVec.getElem_and]

/-- On a minterm a bitwise function is constant. -/
theorem Follows.and_minterm {table : Bool → Bool → Bool} {x y u : UInt64}
    (h : Follows table x y u) (a b : Bool) :
    u &&& minterm a b x y = (if table a b then 1 else 0) * minterm a b x y := by
  have hbits : u &&& minterm a b x y = if table a b then minterm a b x y else 0 := by
    apply UInt64.toBitVec_inj.1
    apply BitVec.eq_of_getElem_eq
    intro i hi
    rw [UInt64.toBitVec_and, BitVec.getElem_and]
    cases hm : (minterm a b x y).toBitVec[i] with
    | false => cases table a b <;> simp [hm]
    | true =>
      rw [getElem_minterm, Bool.and_eq_true, beq_iff_eq, beq_iff_eq] at hm
      obtain ⟨rfl, rfl⟩ := hm
      rw [h i hi, Bool.and_true]
      cases htable : table x.toBitVec[i] y.toBitVec[i] with
      | false => simp
      | true =>
        rw [if_pos rfl, getElem_minterm]
        simp
  rw [hbits]
  split <;> simp

/-- **A bitwise function is the sum of the minterms of its truth table.** -/
theorem Follows.eq_combine {table : Bool → Bool → Bool} {x y u : UInt64}
    (h : Follows table x y u) : u = combine (fun a b => if table a b then 1 else 0) x y := by
  conv => lhs; rw [← sum_minterms u x y]
  simp only [h.and_minterm]
  rfl

/-! ## Linear functions -/

/-- A bitwise function: one truth table for all bits. -/
def IsBitwise (F : WordFn) : Prop :=
  ∃ table, ∀ x y, Follows table x y (F x y)

/-- A sum of minterms. -/
def IsLinear (F : WordFn) : Prop :=
  ∃ c, ∀ x y, F x y = combine c x y

theorem IsBitwise.isLinear {F : WordFn} (h : IsBitwise F) : IsLinear F := by
  obtain ⟨table, htable⟩ := h
  exact ⟨_, fun x y => (htable x y).eq_combine⟩

theorem combine_scale (k : UInt64) (c : Bool → Bool → UInt64) (x y : UInt64) :
    k * combine c x y = combine (fun a b => k * c a b) x y := by
  simp only [combine]
  grind

theorem IsLinear.add {F G : WordFn} (hF : IsLinear F) (hG : IsLinear G) :
    IsLinear fun x y => F x y + G x y := by
  obtain ⟨c, hc⟩ := hF
  obtain ⟨d, hd⟩ := hG
  refine ⟨fun a b => c a b + d a b, fun x y => ?_⟩
  simp only [hc, hd, combine]
  grind

theorem IsLinear.scale {F : WordFn} (k : UInt64) (hF : IsLinear F) :
    IsLinear fun x y => k * F x y := by
  obtain ⟨c, hc⟩ := hF
  exact ⟨fun a b => k * c a b, fun x y => by simp only [hc, combine_scale]⟩

theorem IsLinear.sub {F G : WordFn} (hF : IsLinear F) (hG : IsLinear G) :
    IsLinear fun x y => F x y - G x y := by
  have h : (fun x y => F x y - G x y) = fun x y => F x y + -1 * G x y := by
    funext x y
    grind
  rw [h]
  exact hF.add (hG.scale _)

/-- A word that depends on no input is a multiple of the sum of all minterms, which is `-1`. -/
theorem IsLinear.const (k : UInt64) : IsLinear fun _ _ => k := by
  have hones : IsLinear fun _ _ => (-1 : UInt64) := by
    refine IsBitwise.isLinear ⟨fun _ _ => true, fun x y i hi => ?_⟩
    have hbits : (-1 : UInt64).toBitVec = BitVec.allOnes 64 := by decide
    rw [hbits, BitVec.getElem_allOnes]
  have h : (fun _ _ => k : WordFn) = fun _ _ => -k * -1 := by
    funext _ _
    grind
  rw [h]
  exact hones.scale _

/-! ## Corners -/

theorem minterm_corner (a b c d : Bool) :
    minterm a b (corner c) (corner d) = if a = c ∧ b = d then -1 else 0 := by
  cases a <;> cases b <;> cases c <;> cases d <;> decide

/-- At a corner the function is the negated coefficient of the minterm that is left. -/
theorem combine_corner (c : Bool → Bool → UInt64) (a b : Bool) :
    combine c (corner a) (corner b) = -c a b := by
  simp only [combine, minterm_corner]
  cases a <;> cases b <;> grind

/-- **Two linear functions that agree up to a width at the four corners agree up to it
everywhere.** -/
theorem IsLinear.wrap_eq_of_corners {F G : WordFn} (hF : IsLinear F) (hG : IsLinear G) {w : Width}
    (h : ∀ a b, w.wrap (F (corner a) (corner b)) = w.wrap (G (corner a) (corner b)))
    (x y : UInt64) : w.wrap (F x y) = w.wrap (G x y) := by
  obtain ⟨c, hc⟩ := hF
  obtain ⟨d, hd⟩ := hG
  have hcd (a b : Bool) : w.low (c a b) = w.low (d a b) := by
    have hab := h a b
    rw [Width.wrap_eq_wrap_iff, hc, hd, combine_corner, combine_corner, Width.low_neg,
      Width.low_neg] at hab
    exact BitVec.neg_inj.1 hab
  rw [Width.wrap_eq_wrap_iff, hc, hd]
  simp only [combine, Width.low_add, Width.low_mul, hcd]

end WordFn

open WordFn

/-- The supported operators are linear. -/
theorem BinaryOp.isLinear_onWords {op : BinaryOp} (h : op.isSupported = true) :
    IsLinear op.onWords := by
  have left : IsBitwise fun x _ => x := ⟨_, Follows.left⟩
  have right : IsBitwise fun _ y => y := ⟨_, Follows.right⟩
  cases op <;> simp only [isSupported, reduceCtorEq] at h
  case add => exact left.isLinear.add right.isLinear
  case sub => exact left.isLinear.sub right.isLinear
  case and => exact IsBitwise.isLinear ⟨_, fun x y => (Follows.left x y).and (Follows.right x y)⟩
  case or => exact IsBitwise.isLinear ⟨_, fun x y => (Follows.left x y).or (Follows.right x y)⟩
  case xor => exact IsBitwise.isLinear ⟨_, fun x y => (Follows.left x y).xor (Follows.right x y)⟩

namespace Template

/-! ## Linear templates -/

/-- Whether an operand is an input or the result of a bitwise step, given which steps are. -/
def Operand.isBitwise (bitwise : List Bool) : Operand → Bool
  | .x | .y => true
  | .lit _ => false
  | .tmp i => bitwise[i]?.getD false

/-- Whether a step applies a bitwise operator to operands that are bitwise. -/
def Step.isBitwise (bitwise : List Bool) : Step → Bool
  | .unary .not a => a.isBitwise bitwise
  | .binary .and a b | .binary .or a b | .binary .xor a b =>
    a.isBitwise bitwise && b.isBitwise bitwise
  | .unary _ _ | .binary _ _ _ => false

/-- Whether a step is bitwise, adds, subtracts, or scales by a literal. -/
def Step.isLinear (bitwise : List Bool) (step : Step) : Bool :=
  step.isBitwise bitwise ||
    match step with
    | .binary .add _ _ | .binary .sub _ _ => true
    | .binary .mul a b => a.isLiteral || b.isLiteral
    | .unary _ _ | .binary _ _ _ => false

/-- Whether steps are linear, given which of the steps before them are bitwise. -/
def linearSteps : List Bool → List Step → Bool
  | _, [] => true
  | bitwise, step :: rest =>
    step.isLinear bitwise && linearSteps (bitwise ++ [step.isBitwise bitwise]) rest

/-- Whether every step of a template is linear. -/
def isLinear (t : Template) : Bool := linearSteps [] t.steps

/-- What is known of the functions that linear steps compute. -/
structure LinearFns (bitwise : List Bool) (fs : List WordFn) : Prop where
  linear : ∀ F ∈ fs, IsLinear F
  bitwise : ∀ (i : Nat) (F : WordFn), bitwise[i]? = some true → fs[i]? = some F → IsBitwise F

variable {bitwise : List Bool} {fs : List WordFn}

theorem LinearFns.operand (h : LinearFns bitwise fs) (a : Operand) : IsLinear (a.onWords fs) := by
  cases a with
  | x => exact IsBitwise.isLinear ⟨_, Follows.left⟩
  | y => exact IsBitwise.isLinear ⟨_, Follows.right⟩
  | lit n => exact IsLinear.const _
  | tmp i =>
    rw [Operand.onWords]
    cases hF : fs[i]? with
    | none => exact IsLinear.const 0
    | some F => exact h.linear F (List.mem_of_getElem? hF)

theorem LinearFns.bitwiseOperand (h : LinearFns bitwise fs) {a : Operand}
    (hready : a.Ready fs.length) (ha : a.isBitwise bitwise = true) : IsBitwise (a.onWords fs) := by
  cases a with
  | x => exact ⟨_, Follows.left⟩
  | y => exact ⟨_, Follows.right⟩
  | lit n => simp [Operand.isBitwise] at ha
  | tmp i =>
    have hi : i < fs.length := hready
    have hmark : bitwise[i]? = some true := by
      cases hb : bitwise[i]? <;> simp_all [Operand.isBitwise]
    rw [Operand.onWords, List.getElem?_eq_getElem hi]
    exact h.bitwise i _ hmark (List.getElem?_eq_getElem hi)

theorem LinearFns.bitwiseStep (h : LinearFns bitwise fs) {step : Step}
    (hsound : step.Sound fs.length) (hstep : step.isBitwise bitwise = true) :
    IsBitwise (step.onWords fs) := by
  cases step with
  | unary op a =>
    obtain ⟨rfl, ha⟩ := hsound.unary
    obtain ⟨f, hf⟩ := h.bitwiseOperand ha hstep
    refine ⟨fun a b => !f a b, fun x y => ?_⟩
    simp only [Step.onWords, UnaryOp.eval, Width.wrap_w64]
    exact (hf x y).not
  | binary op a b =>
    obtain ⟨-, ha, hb⟩ := hsound.binary
    cases op <;> simp only [Step.isBitwise, Bool.and_eq_true, Bool.false_eq_true] at hstep
    all_goals
      obtain ⟨f, hf⟩ := h.bitwiseOperand ha hstep.1
      obtain ⟨g, hg⟩ := h.bitwiseOperand hb hstep.2
    case and => exact ⟨_, fun x y => (hf x y).and (hg x y)⟩
    case or => exact ⟨_, fun x y => (hf x y).or (hg x y)⟩
    case xor => exact ⟨_, fun x y => (hf x y).xor (hg x y)⟩

theorem LinearFns.step (h : LinearFns bitwise fs) {step : Step} (hsound : step.Sound fs.length)
    (hstep : step.isLinear bitwise = true) : IsLinear (step.onWords fs) := by
  unfold Step.isLinear at hstep
  rw [Bool.or_eq_true] at hstep
  rcases hstep with hbit | hstep
  · exact (h.bitwiseStep hsound hbit).isLinear
  · cases step with
    | unary op a => simp at hstep
    | binary op a b =>
      cases op <;> simp only [Bool.or_eq_true, Bool.false_eq_true] at hstep
      case add => exact (h.operand a).add (h.operand b)
      case sub => exact (h.operand a).sub (h.operand b)
      case mul =>
        rcases hstep with ha | hb
        · cases a <;> simp only [Operand.isLiteral, Bool.false_eq_true] at ha
          exact (h.operand b).scale _
        · cases b <;> simp only [Operand.isLiteral, Bool.false_eq_true] at hb
          rename_i k
          have hcomm : (Step.binary .mul a (.lit k)).onWords fs =
              fun x y => Width.w64.ofInt k * a.onWords fs x y := by
            funext x y
            exact UInt64.mul_comm _ _
          rw [hcomm]
          exact (h.operand a).scale _

theorem LinearFns.snoc (h : LinearFns bitwise fs) (hlen : bitwise.length = fs.length) {step : Step}
    (hsound : step.Sound fs.length) (hstep : step.isLinear bitwise = true) :
    LinearFns (bitwise ++ [step.isBitwise bitwise]) (fs ++ [step.onWords fs]) := by
  refine ⟨fun F hF => ?_, fun i F hi hF => ?_⟩
  · rcases List.mem_append.1 hF with hF | hF
    · exact h.linear F hF
    · rw [List.mem_singleton.1 hF]
      exact h.step hsound hstep
  · by_cases hlt : i < fs.length
    · rw [List.getElem?_append_left (by omega)] at hi hF
      exact h.bitwise i F hi hF
    · rw [List.getElem?_append_right (by omega)] at hi hF
      rw [hlen] at hi
      rcases List.getElem?_eq_some_iff.1 hF with ⟨h0, rfl⟩
      have hzero : i - fs.length = 0 := by simpa using h0
      simp only [hzero, List.getElem?_cons_zero, Option.some.injEq] at hi
      simpa only [hzero, List.getElem_cons_zero] using h.bitwiseStep hsound hi

theorem LinearFns.steps {steps : List Step} (h : LinearFns bitwise fs)
    (hlen : bitwise.length = fs.length) (hsound : Sound fs.length steps)
    (hlinear : linearSteps bitwise steps = true) :
    ∀ F ∈ stepsOnWords steps fs, IsLinear F := by
  induction steps generalizing bitwise fs with
  | nil => exact h.linear
  | cons step rest ih =>
    rw [linearSteps, Bool.and_eq_true] at hlinear
    refine ih (h.snoc hlen hsound.1 hlinear.1) ?_ ?_ hlinear.2
    · simp [hlen]
    · rw [List.length_append]
      exact hsound.2

/-- **A linear template computes a linear function of whole words.** -/
theorem isLinear_onWords {t : Template} (hshape : t.WellShaped) (h : t.isLinear = true) :
    IsLinear t.onWords := by
  have hnil : LinearFns [] [] := ⟨fun F hF => by simp at hF, fun i F hi _ => by simp at hi⟩
  have hall := hnil.steps rfl (t.wellShaped_iff.1 hshape).2 h
  rw [onWords]
  cases hlast : (stepsOnWords t.steps []).getLast? with
  | none => exact IsLinear.const 0
  | some F => exact hall F (List.mem_of_getLast? hlast)

theorem allowsBinary_of_isSupported {op : BinaryOp} (h : op.isSupported = true) :
    allowsBinary op = true := by
  cases op <;> simp_all [BinaryOp.isSupported, allowsBinary]

/-- **A linear template that computes an operator at the corners computes it everywhere**, at every
width. -/
theorem evaluate_of_corners {t : Template} {op : BinaryOp} (hshape : t.WellShaped)
    (hlinear : t.isLinear = true) (hop : op.isSupported = true)
    (hcorners : ∀ a b, t.onWords (corner a) (corner b) = op.onWords (corner a) (corner b))
    (x y : UInt64) (w : Width) : t.evaluate x y w = op.eval x y w := by
  have heq : w.wrap (t.onWords x y) = w.wrap (op.onWords x y) :=
    (isLinear_onWords hshape hlinear).wrap_eq_of_corners (BinaryOp.isLinear_onWords hop)
      (fun a b => congrArg w.wrap (hcorners a b)) x y
  rw [evaluate_eq_wrap hshape, BinaryOp.eval_eq_onWords (allowsBinary_of_isSupported hop), heq]

end Template

end Mba
