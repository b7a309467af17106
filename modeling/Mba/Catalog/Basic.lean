import Mba.Template

/-!
# Catalogs

A catalog lists templates for binary operators. Every template in it is well-shaped, which the type
guarantees; whether it computes its operator is not checked when it is entered.
-/

namespace Mba

/-- Lists of well-shaped templates, one for each operator. -/
structure Catalog where
  templates : BinaryOp → List Template
  wellShaped : ∀ op, ∀ t ∈ templates op, t.WellShaped

namespace Catalog

/-- The catalog without templates. -/
def empty : Catalog where
  templates := fun _ => []
  wellShaped := by simp

/-- The template lists with one more template for an operator, at the end. -/
def appendTemplate (templates : BinaryOp → List Template) (op : BinaryOp) (t : Template) :
    BinaryOp → List Template :=
  fun op' => if op' = op then templates op' ++ [t] else templates op'

theorem wellShaped_appendTemplate (c : Catalog) (op : BinaryOp) {t : Template} (h : t.WellShaped)
    (op' : BinaryOp) : ∀ t' ∈ appendTemplate c.templates op t op', t'.WellShaped := by
  intro t' ht'
  unfold appendTemplate at ht'
  split at ht'
  · rcases List.mem_append.1 ht' with hold | hnew
    · exact c.wellShaped op' t' hold
    · rwa [List.mem_singleton.1 hnew]
  · exact c.wellShaped op' t' ht'

/-- Enters a template, which must be well-shaped, as the last one of an operator. -/
def register (c : Catalog) (op : BinaryOp) (t : Template) : Except TemplateError Catalog :=
  match h : t.shapeError? with
  | some e => .error e
  | none => .ok ⟨appendTemplate c.templates op t, c.wellShaped_appendTemplate op h⟩

/-- The operators that have templates, in declaration order. -/
def operators (c : Catalog) : List BinaryOp :=
  BinaryOp.all.filter fun op => !(c.templates op).isEmpty

/-- The number of templates. -/
def size (c : Catalog) : Nat :=
  (BinaryOp.all.flatMap c.templates).length

end Catalog

end Mba
