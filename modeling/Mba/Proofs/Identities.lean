import Mba.Catalog.Check
import Mba.Catalog.Standard
import Mba.Proofs.Linear

/-!
# The standard catalog is sound

Every template of the standard catalog is linear, and agrees with its operator at the four corners.
So it agrees with it everywhere.

Results:
* `linear_standardTemplates`, `corners_standardTemplates`: the two facts, by evaluation.
* `evaluate_standardTemplates`: a standard template computes its operator on all words.
* `counterexample?_standard`: no check of a standard template finds a difference, at any point.
-/

namespace Mba.Catalog

open Template WordFn

theorem isSupported_of_mem {op : BinaryOp} {t : Template} (h : t ∈ standardTemplates op) :
    op.isSupported = true := by
  cases op <;> first | rfl | simp [standardTemplates] at h

theorem linear_standardTemplates (op : BinaryOp) :
    ∀ t ∈ standardTemplates op, t.isLinear = true := by
  cases op <;> decide

theorem corners_standardTemplates (op : BinaryOp) :
    ∀ t ∈ standardTemplates op, ∀ a b : Bool,
      t.onWords (corner a) (corner b) = op.onWords (corner a) (corner b) := by
  cases op <;> decide +kernel

/-- **A standard template computes its operator** on all words of all widths. -/
theorem evaluate_standardTemplates {op : BinaryOp} {t : Template} (h : t ∈ standardTemplates op)
    (x y : UInt64) (w : Width) : t.evaluate x y w = op.eval x y w :=
  evaluate_of_corners (wellShaped_standardTemplates op t h) (linear_standardTemplates op t h)
    (isSupported_of_mem h) (corners_standardTemplates op t h) x y w

/-- **No check of a standard template finds a difference**: at every point and width the operator
has a result on the wrapped words, and the template gives it. -/
theorem counterexample?_standard {op : BinaryOp} {t : Template} (h : t ∈ standard.templates op)
    (x y : UInt64) (w : Width) :
    t.counterexample? op x y w = none ∧
      ∃ r, op.eval (w.wrap x) (w.wrap y) w = some r ∧ t.evaluate x y w = some r := by
  have hallows := allowsBinary_of_isSupported (isSupported_of_mem h)
  have hvalue := evaluate_standardTemplates h (w.wrap x) (w.wrap y) w
  obtain ⟨r, hr⟩ : ∃ r, op.eval (w.wrap x) (w.wrap y) w = some r :=
    ⟨_, BinaryOp.eval_eq_onWords hallows _ _ _⟩
  refine ⟨?_, r, hr, ?_⟩
  · rw [counterexample?_eq_none_iff, hvalue, expected, hr]
    rfl
  · rw [← evaluate_wrap, hvalue, hr]

theorem counterexample?_standard_six_three :
    ∃ t ∈ standard.templates .xor, t.formula = "2*(x | y) - y - x" ∧
      t.counterexample? .xor 6 3 .w32 = none ∧ t.evaluate 6 3 .w32 = some 5 := by
  obtain ⟨t, ht⟩ : ∃ t, (standard.templates .xor)[3]? = some t := ⟨_, rfl⟩
  obtain ⟨hnone, r, hr, ht'⟩ := counterexample?_standard (List.mem_of_getElem? ht) 6 3 .w32
  refine ⟨t, List.mem_of_getElem? ht, ?_, hnone, ?_⟩
  · obtain rfl := Option.some.inj ht
    rfl
  · rw [ht', ← hr]
    decide

end Mba.Catalog
