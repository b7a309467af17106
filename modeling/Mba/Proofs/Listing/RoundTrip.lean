import Mba.Proofs.Listing.Rebuilding
import Mba.Proofs.Program.Calls

/-!
# Printing a program and reading it again

A program that is made by calls of a builder is read back from its text operation by operation: with
the same opcode and the same type, and with each operand coming from the same input or from the
result of the operation at the same place. One thing is lost. All doubles that are no numbers have
the text `NaN`, so a constant that is one is read back as the only one that has no sign and no
payload. Programs compare and return doubles by their bits, so the program that is read back may
have other outputs than the one that was printed.

Results:
* `Copies.readBack`: copied operations read from the same places.
* `CopyOf.readBack`: a copy has the operations of the program, up to constants that are no numbers.
* `Program.read_print_calls`: so has what is read from the text of a program made by calls.
-/

namespace Mba

open Listing

/-- The opcode that reading its text gives. -/
def Opcode.readBack : Opcode → Opcode
  | .fconst bits => .fconst (Double.canonical ⟨bits⟩).bits
  | opcode => opcode

theorem Operation.Exact.reread_eq {opcode : Opcode} {resultTy? : Option Ty}
    (h : Operation.Exact opcode resultTy?) : opcode.reread resultTy? = opcode.readBack := by
  cases opcode with
  | const bits => exact h bits rfl
  | fconst bits | unary op | binary op | compare test | ret => rfl

namespace Store

variable {s s' : Store} {p p' : Program} {n n' : Numbering}

/-- Two values are the same input of two programs, by its position, or the results of their
operations at the same place. -/
inductive SameSource (s : Store) (inputs : List ValueId) (ops : List OpId) (s' : Store)
    (inputs' : List ValueId) (ops' : List OpId) (v v' : ValueId) : Prop
  | input (i : Nat) (hv : inputs[i]? = some v) (hv' : inputs'[i]? = some v')
  | result (i : Nat) (hv : ops[i]?.bind s.result? = some v)
      (hv' : ops'[i]?.bind s'.result? = some v')

/-- The second operation is the first one read back: it has the opcode up to constants that are no
numbers, the type of the result, and operands that come from the same places. -/
structure SameOperation (source : ValueId → ValueId → Prop) (d d' : Operation) : Prop where
  opcode : d'.opcode = d.opcode.readBack
  resultTy? : d'.resultTy? = d.resultTy?
  operands : List.Forall₂ source d.operands d'.operands

/-- The operations are those read back, one by one. -/
def SameOperations (source : ValueId → ValueId → Prop) (s s' : Store) (ops ops' : List OpId) : Prop :=
  List.Forall₂ (fun o o' => ∃ d d', s.ops[o.index]? = some d ∧ s'.ops[o'.index]? = some d' ∧
    SameOperation source d d') ops ops'

/-- The second program is the first one read back. -/
structure ReadBack (s : Store) (p : Program) (s' : Store) (p' : Program) : Prop where
  name : p'.name = p.name
  inputTys : p'.inputTys s' = p.inputTys s
  ops : ∃ ops ops', p.ops s = .ok ops ∧ p'.ops s' = .ok ops' ∧
    SameOperations (SameSource s (p.inputs s) ops s' (p'.inputs s') ops') s s' ops ops'

/-- **Copied operations read from the same places.** The values with one number are those that come
from the same place before the operations, and so they are behind each of them. -/
theorem Copies.readBack {inputs inputs' : List ValueId} {ops ops' : List OpId}
    (h : Copies s s' n n' ops ops') (done done' : List OpId) (hn : n.InStep n')
    (hlength : done.length = done'.length) (hexact : s.ExactOn ops)
    (hsource : n.Relates n' (SameSource s inputs (done ++ ops) s' inputs' (done' ++ ops'))) :
    SameOperations (SameSource s inputs (done ++ ops) s' inputs' (done' ++ ops')) s s' ops ops' := by
  induction h generalizing done done' with
  | nil n n' => exact .nil
  | @cons n n' o o' rest rest' d d' operands entry entry' reread numbers numbers' more ih =>
    refine .cons ⟨d, d', entry, entry', ?_, reread.resultTy?, numbers.forall₂ hsource numbers'⟩ ?_
    · rw [reread.opcode, (hexact o List.mem_cons_self d entry).reread_eq]
    · have hlength' : (done ++ [o]).length = (done' ++ [o']).length := by simp [hlength]
      have hnext := hsource.after hn reread fun v v' hv hv' =>
        .result done.length (by simp [result?_eq entry, hv])
          (by simp [hlength, result?_eq entry', hv'])
      have hrest := ih (done ++ [o]) (done' ++ [o']) (hn.after reread) hlength'
        fun o' ho' => hexact o' (List.mem_cons_of_mem _ ho')
      simp only [List.append_assoc, List.singleton_append] at hrest
      exact hrest hnext

/-- **A copy is the program read back**, if the integer constants of the program are within their
widths. -/
theorem CopyOf.readBack (h : CopyOf s p s' p') (hs : s.Owned) (hs' : s'.Owned) {ops : List OpId}
    (hops : p.ops s = .ok ops) (hexact : s.ExactOn ops) : ReadBack s p s' p' := by
  obtain ⟨ops₁, ops', hops₁, hops', hcopies⟩ := h.ops
  obtain rfl : ops = ops₁ := Except.ok.inj (hops.symm.trans hops₁)
  have hlength : (p.inputs s).length = (p'.inputs s').length := by
    rw [Program.inputs, Program.inputs, hs.length_args, hs'.length_args, h.argTys]
  have hinputs : List.Forall₂ (SameSource s (p.inputs s) ops s' (p'.inputs s') ops')
      (p.inputs s) (p'.inputs s') := by
    refine List.forall₂_iff_get.2 ⟨hlength, fun i hi hi' => .input i ?_ ?_⟩
    · exact List.getElem?_eq_getElem hi
    · exact List.getElem?_eq_getElem hi'
  have hsource := Numbering.relates_start.assignAll Numbering.inStep_start hinputs
  refine ⟨h.name, ?_, ops, ops', hops, hops', ?_⟩
  · rw [inputTys_of_listed hops, inputTys_of_listed hops', h.argTys]
  · exact hcopies.readBack [] [] (Numbering.inStep_start.assignAll hlength) rfl hexact hsource

end Store

open Store Builder

/-- **The text of a program made by calls of a builder is read back as the program**, in every
store: only constants that are no numbers are replaced. The calls may fail; they end without a
fault, and the program has the operations of those that do not fail. -/
theorem Program.read_print_calls {s₀ s : Store} {p : Program} (hs₀ : s₀.Reachable) {name : String}
    {tys : List Ty} (hname : Scanner.isIdentifier name.toList = true)
    (hcreate : Program.create s₀ name tys = (p, s)) {calls : List Call}
    (hknown : readsKnown p (Builder.start s (.atEnd p.entry)) calls = true) :
    ∃ s' ops text, attemptAll (Builder.start s (.atEnd p.entry)) calls =
        .ok ⟨s', .atEnd p.entry, ops⟩ ∧ p.ops s' = .ok ops ∧ p.print s' = .ok text ∧
      ∀ s₁ : Store, s₁.Reachable →
        ∃ p' s'', Program.read text s₁ = .done p' s'' ∧ ReadBack s' p s'' p' := by
  cases hcreate
  obtain ⟨s', ops, hall, happended, hexact⟩ :=
    attemptAll_appended calls (hs₀.consistent.built_create name tys) hknown nofun
  have hbuilt := happended.built (hs₀.consistent.built_create name tys)
  obtain ⟨text, hprint, hread⟩ :=
    read_print hbuilt.consistent.owned hbuilt.listed hbuilt.flow hname
  refine ⟨s', ops, text, hall, hbuilt.listed, hprint, fun s₁ hs₁ => ?_⟩
  obtain ⟨p', s'', ops', hread, hbuilt', hcopy⟩ := hread s₁ hs₁.consistent
  exact ⟨p', s'', hread, hcopy.readBack hbuilt.consistent.owned hbuilt'.consistent.owned
    hbuilt.listed hexact⟩

/-- Calls of which the fourth one fails, as it mixes types. -/
def mixedCalls : List Call :=
  [.int (.int .w8) 300, .double ⟨0x7ff0000000000000⟩, .binary .add ⟨0⟩ ⟨1⟩, .binary .add ⟨0⟩ ⟨2⟩,
    .compare .lt ⟨3⟩ ⟨0⟩, .ret [⟨4⟩, ⟨2⟩]]

theorem Program.read_print_calls_mixed :
    let p : Program := ⟨"mixed", ⟨0⟩⟩
    ∃ s ops text p' s', attemptAll
        (Builder.start (Program.create empty "mixed" [.int .w8]).2 (.atEnd p.entry)) mixedCalls =
        .ok ⟨s, .atEnd p.entry, ops⟩ ∧ p.print s = .ok text ∧
      Program.read text empty = .done p' s' ∧ ReadBack s p s' p' := by
  intro p
  obtain ⟨s, ops, text, hall, -, hprint, hread⟩ :=
    Program.read_print_calls (p := p) .empty (by decide) rfl
      (show readsKnown p (Builder.start (Program.create empty "mixed" [.int .w8]).2
        (.atEnd p.entry)) mixedCalls = true by decide +kernel)
  obtain ⟨p', s', hread, hback⟩ := hread empty .empty
  exact ⟨s, ops, text, p', s', hall, hprint, hread, hback⟩

/-- A store that holds a program which returns the NaN that has the sign. -/
def signedStore : Store where
  ops := #[⟨.fconst 0xfff8000000000000, [], some .double, some ⟨0⟩, some ⟨0⟩⟩,
    ⟨.ret, [⟨0⟩], none, none, some ⟨0⟩⟩]
  values := #[⟨.result ⟨0⟩, .double⟩]
  blocks := #[⟨[], [], [⟨0⟩, ⟨1⟩]⟩]
  chains := ⟨#[some [⟨⟨1⟩, 0⟩]]⟩

/-- The text of the program, which does not tell the sign. -/
def signedText : String :=
  "program @signed() \x7b
  %0 = fconst NaN : f64
  return %0
\x7d
"

/-- **The sign of a NaN is lost.** The program is read back with another constant, and returns
another double. -/
theorem Program.read_print_signed :
    let p : Program := ⟨"signed", ⟨0⟩⟩
    let b := Builder.start (Program.create empty "signed" []).2 (.atEnd p.entry)
    let calls : List Call := [.double ⟨0xfff8000000000000⟩, .ret [⟨0⟩]]
    readsKnown p b calls = true ∧
      attemptAll b calls = .ok ⟨signedStore, .atEnd p.entry, [⟨0⟩, ⟨1⟩]⟩ ∧
      p.print signedStore = .ok signedText ∧
      ∃ p' s', Program.read signedText empty = .done p' s' ∧ p'.ops s' = .ok [⟨0⟩, ⟨1⟩] ∧
        s'.opcode? ⟨0⟩ ≠ signedStore.opcode? ⟨0⟩ ∧ s'.run p' [] ≠ signedStore.run p [] := by
  intro p b calls
  have hfound : ((Program.read signedText empty).done?.any fun found =>
      found.1.ops found.2 = .ok [⟨0⟩, ⟨1⟩] && found.2.opcode? ⟨0⟩ ≠ signedStore.opcode? ⟨0⟩ &&
        found.2.run found.1 [] ≠ signedStore.run p []) = true := by decide +kernel
  obtain ⟨⟨p', s'⟩, hdone, hfound⟩ := (Option.any_eq_true _ _).1 hfound
  simp only [Bool.and_eq_true, decide_eq_true_eq] at hfound
  obtain ⟨⟨hops, hopcode⟩, hrun⟩ := hfound
  exact ⟨by decide +kernel, rfl, by decide +kernel, p', s', Outcome.done?_eq_some_iff.1 hdone,
    hops, hopcode, hrun⟩

end Mba
