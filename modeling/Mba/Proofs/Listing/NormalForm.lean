import Mba.Proofs.Listing.Loading
import Mba.Proofs.Listing.Rebuilding

/-!
# The printed text is a normal form

A text that is read as a program may name its values freely, be laid out loosely, and spell its
constants in many ways. Printing the program gives a text that is read again, in whatever store, and
that printing does not change any more: what is read is a copy of the program, and copies have one
text.

Results:
* `RereadAs.line_eq`, `Copies.lists`: copied operations are printed as the same lines.
* `CopyOf.print_eq`: a copy of a program has the same text.
* `print_normalForm`: the printed text of a program that was read is read and printed as itself.
-/

namespace Mba

open Listing

/-! ## Copies -/

theorem Opcode.mnemonic_reread (resultTy? : Option Ty) (opcode : Opcode) :
    (opcode.reread resultTy?).mnemonic = opcode.mnemonic := by
  cases opcode with
  | const bits =>
    unfold reread
    dsimp only
    split <;> rfl
  | fconst bits | unary op | binary op | compare test => rfl
  | ret => rfl

/-- **A copied operation has the line of the operation.** -/
theorem Operation.RereadAs.line_eq {d d' : Operation} (h : d.RereadAs d') (operands : List Nat)
    (next : Nat) : d'.line operands next = d.line operands next := by
  have hliteral : d'.literal? = d.literal? := by
    rw [Operation.literal?, Operation.literal?, h.opcode, h.resultTy?]
    cases d.opcode with
    | const bits =>
      cases hw : d.resultTy?.bind Ty.width? with
      | none => simp only [Opcode.reread, hw]
      | some w => simp only [Opcode.reread, hw, w.ofInt_signed, w.signed_wrap]
    | fconst bits =>
      exact congrArg (fun x => some (Literal.double x)) (Double.canonical_canonical ⟨bits⟩)
    | unary op | binary op | compare test => rfl
    | ret => rfl
  have hresult :
      (d'.result?.map fun _ => toString next) = d.result?.map fun _ => toString next := by
    have := h.result?
    cases hv : d.result? <;> cases hv' : d'.result? <;> simp [hv, hv'] at this ⊢
  rw [line, line, hresult, hliteral, h.opcode, Opcode.mnemonic_reread, h.resultTy?]

namespace Store

variable {s s' : Store} {p p' : Program} {n n' : Numbering}

theorem Numbers.unique {vs : List ValueId} {operands operands' : List Nat}
    (h : Numbers n vs operands) (h' : Numbers n vs operands') : operands' = operands :=
  (List.map_inj_right fun _ _ => Option.some.inj).1 (h'.symm.trans h)

/-- **Copied operations have the lines of the operations.** -/
theorem Copies.lists {ops ops' : List OpId} {lines : List Line} (h : Copies s s' n n' ops ops')
    (hn : n.InStep n') (hlines : Lists s n ops lines) : Lists s' n' ops' lines := by
  induction h generalizing lines with
  | nil n n' =>
    cases hlines
    exact .nil n'
  | @cons n n' o o' rest rest' d d' operands entry entry' reread numbers numbers' more ih =>
    cases hlines with
    | @cons _ _ _ more' d₁ operands' entry₁ hnumbers hmore =>
      obtain rfl : d = d₁ := Option.some.inj (entry.symm.trans entry₁)
      obtain rfl := numbers.unique hnumbers
      rw [← reread.line_eq, ← hn.next]
      exact .cons entry' numbers' (ih (hn.after reread) hmore)

/-- **A copy of a program has the same text.** -/
theorem CopyOf.print_eq (h : CopyOf s p s' p') (hs : s.Owned) (hs' : s'.Owned) {ops : List OpId}
    (hops : p.ops s = .ok ops) (hflow : s.Flow p [] ops) : p'.print s' = p.print s := by
  obtain ⟨ops₁, ops', hops₁, hops', hcopies⟩ := h.ops
  obtain rfl : ops = ops₁ := Except.ok.inj (hops.symm.trans hops₁)
  obtain ⟨lines, hlines⟩ := (covers_inputs s p).lists hflow
  have hlength : (p.inputs s).length = (p'.inputs s').length := by
    rw [Program.inputs, Program.inputs, hs.length_args, hs'.length_args, h.argTys]
  have hlines' := hcopies.lists (Numbering.inStep_start.assignAll hlength) hlines
  obtain ⟨text, hprint, htext⟩ := print_ok hs hops hlines
  obtain ⟨text', hprint', htext'⟩ := print_ok hs' hops' hlines'
  have hlisting : s'.listing p' lines = s.listing p lines := by
    rw [listing, listing, h.name, h.argTys]
  rw [hprint, hprint', String.toList_injective (htext'.trans (hlisting ▸ htext.symm))]

end Store

open Store

/-! ## Texts -/

/-- **The printed text is a normal form.** Whatever text is read, the program is printed, and
reading what is printed succeeds in every store and gives a copy of the program, which is printed in
the same way. Nothing is asked of the program but that it was read: it may have no `ret`, and its
double constants may be infinite or no numbers. All reachable stores are consistent, and so are
those that texts were read into. -/
theorem Program.print_normalForm {text : String} {s₀ s : Store} {p : Program}
    (hs₀ : s₀.Consistent) (h : Program.read text s₀ = .done p s) :
    ∃ printed, p.print s = .ok printed ∧ ∀ s₁ : Store, s₁.Consistent →
      ∃ p' s', Program.read printed s₁ = .done p' s' ∧ CopyOf s p s' p' ∧
        p'.print s' = .ok printed := by
  obtain ⟨hname, ⟨ops, hbuilt⟩, -⟩ := Program.read_done hs₀ h
  have howned := hbuilt.consistent.owned
  obtain ⟨printed, hprint, hread⟩ := read_print howned hbuilt.listed hbuilt.flow hname
  refine ⟨printed, hprint, fun s₁ hs₁ => ?_⟩
  obtain ⟨p', s', ops', hread', hbuilt', hcopy⟩ := hread s₁ hs₁
  refine ⟨p', s', hread', hcopy, ?_⟩
  rw [hcopy.print_eq howned hbuilt'.consistent.owned hbuilt.listed hbuilt.flow, hprint]

/-- The text of a program without a `ret`, with named values and constants in unusual spellings. -/
def looseText : String :=
  "program  @loose( %x : i64 ,%y: i64 )\x7b

%limit=const -9223372036854775808:i64
   %none = fconst -nan
   %far = fconst 1e309:f64
  %d = sub %x , %limit

\x7d
"

/-- What the program is printed as. -/
def plainText : String :=
  "program @loose(%0: i64, %1: i64) \x7b
  %2 = const -9223372036854775808 : i64
  %3 = fconst NaN : f64
  %4 = fconst inf : f64
  %5 = sub %0, %2 : i64
\x7d
"

theorem Program.print_normalForm_loose :
    ∃ p s, Program.read looseText empty = .done p s ∧ p.print s = .ok plainText ∧
      ∃ p' s', Program.read plainText s = .done p' s' ∧ p'.print s' = .ok plainText := by
  have hloose : ((Program.read looseText empty).done?.any fun found =>
      found.1.print found.2 = .ok plainText) = true := by decide +kernel
  obtain ⟨⟨p, s⟩, hfound, hprinted⟩ := (Option.any_eq_true _ _).1 hloose
  have hread := Outcome.done?_eq_some_iff.1 hfound
  have hprint : p.print s = .ok plainText := of_decide_eq_true hprinted
  obtain ⟨printed, hprinted, hagain⟩ := Program.print_normalForm consistent_empty hread
  obtain rfl : printed = plainText := Except.ok.inj (hprinted.symm.trans hprint)
  obtain ⟨-, ⟨done, hbuilt⟩, -⟩ := Program.read_done consistent_empty hread
  obtain ⟨p', s', hread', -, hprint'⟩ := hagain s hbuilt.consistent
  exact ⟨p, s, hread, hprint, p', s', hread', hprint'⟩

end Mba
