import Mba.Program.Print
import Mba.Proofs.Listing.Rendering
import Mba.Proofs.Program.Copy

/-!
# What a program is printed as

The text of a program is that of a listing, whose names are the numbers that values get in the order
of their definitions.

Results:
* `toList_text`: an operation is printed as a line.
* `Lists.printOps`, `printInputs_ok`: operations are printed as lines, inputs as parameters.
* `print_ok`: a program whose operations flow has a text, which is that of a listing.
* `ofText_print`: the text is taken apart into the listing.
-/

namespace Mba

open Listing

/-- The constant on the line of an operation. -/
def Operation.literal? (d : Operation) : Option Literal :=
  match d.opcode with
  | .const bits =>
    match d.resultTy?.bind Ty.width? with
    | some w => some (.int (w.signed bits))
    | none => some (.int bits.toNat)
  | .fconst bits => some (.double (Double.canonical ⟨bits⟩))
  | .unary _ | .binary _ | .compare _ | .ret => none

/-- The line of an operation that reads the values with the given numbers and defines the value
`next`. -/
def Operation.line (d : Operation) (operands : List Nat) (next : Nat) : Line where
  offset := 0
  result? := d.result?.map fun _ => toString next
  mnemonic := d.opcode.mnemonic
  literal? := d.literal?
  operands := operands.map toString
  ty? := d.resultTy?.map Ty.name

/-- The parameters of the given types, numbered from `next` on. -/
def paramsFrom : Nat → List Ty → List (String × String)
  | _, [] => []
  | next, ty :: rest => (toString next, ty.name) :: paramsFrom (next + 1) rest

namespace Store

/-- The lines of operations, along a numbering that gives each result the next number. -/
inductive Lists (s : Store) : Numbering → List OpId → List Line → Prop
  | nil (n : Numbering) : Lists s n [] []
  | cons {n : Numbering} {o : OpId} {rest : List OpId} {lines : List Line} {d : Operation}
      {operands : List Nat} (entry : s.ops[o.index]? = some d)
      (numbers : Numbers n d.operands operands) (more : Lists s (n.after d) rest lines) :
      Lists s n (o :: rest) (d.line operands n.next :: lines)

end Store

/-! ## Texts -/

/-- A text is printed as it is. -/
theorem toString_eq_self (text : String) : toString text = text := rfl

theorem Numbering.name_eq {n : Numbering} {v : ValueId} {i : Nat} (h : n.number? v = some i) :
    (n.name v).toList = operandText (toString i) := by
  rw [name]
  rw [number?] at h
  rw [h]
  simp only [toString_eq_self, String.toList_append]
  rfl

section

variable (d : Operation) {names : List String} {result? : Option String} {operands : List Nat}
  {next : Nat}

theorem Operation.toList_resultText
    (hresult : result?.map String.toList = d.result?.map fun _ => operandText (toString next)) :
    ((result?.map fun name => s!"{name} = ").getD "").toList = (d.line operands next).resultText := by
  rw [Line.resultText, line]
  cases hd : d.result? with
  | none =>
    rw [hd, Option.map_none, Option.map_eq_none_iff] at hresult
    rw [hresult]
    rfl
  | some v =>
    rw [hd, Option.map_some] at hresult
    obtain ⟨name, rfl, hname⟩ := Option.map_eq_some_iff.1 hresult
    simp only [Option.map_some, Option.getD_some, toString_eq_self, String.toList_append, hname]
    rfl

theorem Operation.toList_operandsText
    (hnames : names.map String.toList = operands.map fun i => operandText (toString i)) :
    (if names.isEmpty then "" else " " ++ ", ".intercalate names).toList =
      (d.line operands next).operandsText := by
  have hempty : names.isEmpty = operands.isEmpty := by
    rw [← List.isEmpty_map (f := String.toList), hnames, List.isEmpty_map]
  rw [Line.operandsText, line, List.isEmpty_map, hempty, List.map_map]
  split
  · rfl
  · rw [String.toList_append, String.toList_intercalate, hnames]
    rfl

theorem Operation.toList_tyText : ((d.resultTy?.map fun ty => s!" : {ty.name}").getD "").toList =
    (d.line operands next).tyText := by
  rw [Line.tyText, line]
  cases d.resultTy? with
  | none => rfl
  | some ty =>
    simp only [Option.map_some, Option.getD_some, toString_eq_self, String.toList_append]
    rfl

/-- **An operation is printed as its line**, under names that are numbers. -/
theorem Operation.toList_text
    (hnames : names.map String.toList = operands.map fun i => operandText (toString i))
    (hresult : result?.map String.toList = d.result?.map fun _ => operandText (toString next)) :
    (d.text names result?).toList = (d.line operands next).text := by
  have hliteralText : (match d.opcode with
      | .const bits =>
        match d.resultTy?.bind Ty.width? with
        | some w => s!" {w.signed bits}"
        | none => s!" {bits.toNat}"
      | .fconst bits => s!" {(Double.mk bits).text}"
      | .unary _ | .binary _ | .compare _ | .ret => "").toList =
      (d.line operands next).literalText := by
    rw [Line.literalText, line]
    dsimp only
    rw [literal?]
    split
    · split <;> (simp only [toString_eq_self, String.toList_append]; rfl)
    · next bits _ =>
      have htext : (Double.mk bits).canonical.text = (Double.mk bits).text :=
        Double.textIn_canonical _ _
      simp only [Literal.text, htext, toString_eq_self, String.toList_append]
      rfl
    all_goals rfl
  rw [text, Line.text, ← d.toList_resultText hresult, ← hliteralText,
    ← d.toList_operandsText hnames, ← d.toList_tyText]
  simp only [String.toList_append, List.append_assoc]
  rfl

end

namespace Store

variable {s : Store} {p : Program} {n : Numbering}

theorem Numbers.names {vs : List ValueId} {operands : List Nat} (h : Numbers n vs operands) :
    (vs.map n.name).map String.toList = operands.map fun i => operandText (toString i) := by
  induction vs generalizing operands with
  | nil =>
    cases operands with
    | nil => rfl
    | cons i operands => cases h
  | cons v vs ih =>
    cases operands with
    | nil => cases h
    | cons i operands =>
      obtain ⟨hi, hrest⟩ := List.cons.inj h
      rw [List.map_cons, List.map_cons, List.map_cons, Numbering.name_eq hi, ih hrest]

/-- **Operations are printed as their lines.** -/
theorem Lists.printOps {ops : List OpId} {lines : List Line} (h : Lists s n ops lines) :
    ∃ texts, s.printOps ops n = .ok texts ∧ texts.map String.toList = lines.map Line.text := by
  induction h with
  | nil n => exact ⟨[], rfl, rfl⟩
  | @cons n o rest lines d operands entry numbers more ih =>
    obtain ⟨texts, htexts, heq⟩ := ih
    have hresult : (d.result?.map (n.after d).name).map String.toList =
        d.result?.map fun _ => operandText (toString n.next) := by
      rw [Option.map_map]
      cases hd : d.result? with
      | none => rfl
      | some v =>
        have hnumber : (n.after d).number? v = some n.next := by
          rw [Numbering.after, hd]
          exact (n.number?_assign v v).trans (if_pos rfl)
        exact congrArg some (Numbering.name_eq hnumber)
    refine ⟨d.text (d.operands.map n.name) (d.result?.map (n.after d).name) :: texts, ?_, ?_⟩
    · rw [Store.printOps]
      refine bind_eq_ok.2 ⟨d, op_eq_ok_iff.2 entry, ?_⟩
      exact bind_eq_ok.2 ⟨texts, htexts, rfl⟩
    · rw [List.map_cons, List.map_cons, heq, d.toList_text numbers.names hresult]

theorem printInputs_ok {vs : List ValueId} {tys : List Ty}
    (h : vs.map s.valueTy = tys.map .ok) (n : Numbering) :
    ∃ texts, s.printInputs vs n = .ok (texts, n.assignAll vs) ∧
      texts.map String.toList = (paramsFrom n.next tys).map paramText := by
  induction vs generalizing tys n with
  | nil =>
    cases tys with
    | nil => exact ⟨[], rfl, rfl⟩
    | cons ty tys => cases h
  | cons v vs ih =>
    cases tys with
    | nil => cases h
    | cons ty tys =>
      obtain ⟨hty, hrest⟩ := List.cons.inj h
      obtain ⟨texts, htexts, heq⟩ := ih hrest (n.assign v)
      refine ⟨s!"{(n.assign v).name v}: {ty.name}" :: texts, ?_, ?_⟩
      · rw [printInputs]
        refine bind_eq_ok.2 ⟨ty, hty, ?_⟩
        exact bind_eq_ok.2 ⟨_, htexts, rfl⟩
      · have hname := Numbering.name_eq ((n.number?_assign v v).trans (if_pos rfl))
        rw [List.map_cons, heq]
        simp only [toString_eq_self, String.toList_append, hname, List.append_assoc]
        rfl

/-! ## Programs -/

/-- Every value that is known behind the operations has a number. -/
def Covers (s : Store) (p : Program) (done : List OpId) (n : Numbering) : Prop :=
  ∀ v, s.Defines p done v → ∃ i, n.number? v = some i

theorem covers_inputs (s : Store) (p : Program) :
    s.Covers p [] (Numbering.start.assignAll (p.inputs s)) := by
  rintro v (hinput | ⟨o, ho, -⟩)
  · exact Numbering.exists_number?_assignAll _ (.inl hinput)
  · cases ho

theorem Covers.after {done : List OpId} (h : s.Covers p done n) {o : OpId} {d : Operation}
    (hd : s.ops[o.index]? = some d) : s.Covers p (done ++ [o]) (n.after d) := by
  intro v hv
  rw [Numbering.after]
  rcases defines_append_singleton.1 hv with hold | hnew
  · cases d.result? with
    | none => exact h v hold
    | some w =>
      dsimp only
      rw [n.number?_assign]
      split
      · exact ⟨_, rfl⟩
      · exact h v hold
  · rw [result?_eq hd] at hnew
    rw [hnew]
    exact ⟨_, (n.number?_assign v v).trans (if_pos rfl)⟩

theorem Covers.numbers {done : List OpId} (h : s.Covers p done n) {vs : List ValueId}
    (hvs : ∀ v ∈ vs, s.Defines p done v) : ∃ operands, Numbers n vs operands := by
  induction vs with
  | nil => exact ⟨[], rfl⟩
  | cons v vs ih =>
    obtain ⟨i, hi⟩ := h v (hvs v List.mem_cons_self)
    obtain ⟨operands, hrest⟩ := ih fun v' hv' => hvs v' (List.mem_cons_of_mem _ hv')
    exact ⟨i :: operands, by rw [Numbers, List.map_cons, List.map_cons, hi, hrest]⟩

/-- Operations that flow have lines. -/
theorem Covers.lists {ops done : List OpId} (h : s.Covers p done n) (hflow : s.Flow p done ops) :
    ∃ lines, Lists s n ops lines := by
  induction ops generalizing done n with
  | nil => exact ⟨[], .nil n⟩
  | cons o rest ih =>
    obtain ⟨⟨d, hd, hfits⟩, hrest⟩ := hflow
    obtain ⟨operands, hoperands⟩ := h.numbers hfits.operands
    obtain ⟨lines, hlines⟩ := ih (h.after hd) hrest
    exact ⟨_, .cons hd hoperands hlines⟩

/-- The listing that a program with the given lines is printed as. -/
def listing (s : Store) (p : Program) (lines : List Line) : Listing :=
  ⟨⟨p.name, paramsFrom 0 (s.argTys p.entry)⟩, lines⟩

/-- **A program whose operations have lines is printed as a listing.** -/
theorem print_ok (hs : s.Owned) {ops : List OpId} (hops : p.ops s = .ok ops) {lines : List Line}
    (hlines : Lists s (Numbering.start.assignAll (p.inputs s)) ops lines) :
    ∃ text, p.print s = .ok text ∧ text.toList = (s.listing p lines).text := by
  obtain ⟨inputs, hinputs, hparams⟩ := printInputs_ok (hs.valueTys_args p.entry) Numbering.start
  obtain ⟨texts, htexts, heq⟩ := hlines.printOps
  have hhead : (s!"program @{p.name}(" ++ ", ".intercalate inputs ++ ") \x7b\n").toList =
      (s.listing p lines).header.text ++ ['\n'] := by
    have hstart : "program @".toList = "program".toList ++ [' ', '@'] := by decide
    simp only [toString_eq_self, String.toList_append, String.toList_intercalate, hparams, hstart]
    unfold Header.text
    generalize "program".toList = program
    simp only [List.append_assoc, List.cons_append, List.nil_append]
    rfl
  have hbody : (String.join (texts.map fun op => s!"  {op}\n") ++ "\x7d\n").toList =
      linesText lines := by
    have hline : ∀ text : String,
        (s!"  {text}\n").toList = ' ' :: ' ' :: (text.toList ++ ['\n']) := by
      intro text
      simp only [toString_eq_self, String.toList_append]
      rfl
    rw [String.toList_append, String.toList_join, List.flatMap_map]
    simp only [hline]
    rw [← List.flatMap_map String.toList fun text => ' ' :: ' ' :: (text ++ ['\n']), heq,
      List.flatMap_map]
    rfl
  refine ⟨_, bind_eq_ok.2 ⟨_, hinputs, bind_eq_ok.2 ⟨ops, hops, bind_eq_ok.2
    ⟨texts, htexts, rfl⟩⟩⟩, ?_⟩
  rw [String.append_assoc, String.toList_append, hhead, hbody, Listing.text, List.append_assoc]
  rfl

end Store

/-! ## Plain listings -/

theorem isValueName_toString (i : Nat) : Scanner.isValueName (toString i).toList = true := by
  have hdigits : ∀ c ∈ Nat.toDigits 10 i, Scanner.isNameChar c = true := by
    intro c hc
    rw [Scanner.isNameChar, Char.isAlphanum, Scanner.isDigit_of_mem_toDigits c hc, Bool.or_true,
      Bool.true_or]
  show Scanner.isValueName (Nat.repr i).toList = true
  rw [Nat.toList_repr, Scanner.isValueName, List.all_eq_true.2 hdigits]
  simp [Nat.toDigits_ne_nil]

theorem isMnemonic_mnemonic (opcode : Opcode) :
    Scanner.isMnemonic opcode.mnemonic.toList = true := by
  cases opcode with
  | const bits => exact (by decide : Scanner.isMnemonic "const".toList = true)
  | fconst bits => exact (by decide : Scanner.isMnemonic "fconst".toList = true)
  | unary op => cases op <;> decide
  | binary op => cases op <;> decide
  | compare test => cases test <;> decide
  | ret => decide

theorem isIdentifier_name (ty : Ty) : Scanner.isIdentifier ty.name.toList = true := by
  rcases ty with w | _ | _
  · cases w <;> decide
  · decide
  · decide

theorem Width.signed_bounds (w : Width) (word : UInt64) :
    -2 ^ 63 ≤ w.signed word ∧ w.signed word < 2 ^ 63 := by
  have hpos : 0 < 2 ^ w.bits := Nat.two_pow_pos _
  have hlow := Int.le_bmod (x := (word.toNat : Int)) hpos
  have hhigh := Int.bmod_lt (x := (word.toNat : Int)) hpos
  rw [signed_eq_bmod]
  cases w <;> simp only [bits] at hlow hhigh ⊢ <;> omega

/-- **The line of a well-typed operation is plain.** -/
theorem Operation.plain_line {s : Store} {d : Operation} (htyped : s.typeDefect? d = none)
    (operands : List Nat) (next : Nat) : (d.line operands next).Plain where
  result name hname := by
    obtain ⟨v, -, rfl⟩ := Option.map_eq_some_iff.1 hname
    exact isValueName_toString next
  mnemonic := isMnemonic_mnemonic d.opcode
  literal := by
    have htyping := Store.typeDefect?_eq_none_iff_wellTyped.1 htyped
    obtain ⟨opcode, operands, resultTy?, result?, parent?⟩ := d
    cases htyping with
    | const bits w => exact ⟨rfl, w.signed_bounds bits⟩
    | fconst bits => exact ⟨rfl, Double.canonical_canonical _⟩
    | @unary op =>
      show op.mnemonic ≠ "const" ∧ op.mnemonic ≠ "fconst"
      cases op <;> decide
    | @binary op =>
      show op.mnemonic ≠ "const" ∧ op.mnemonic ≠ "fconst"
      cases op <;> decide
    | compare test =>
      show test.mnemonic ≠ "const" ∧ test.mnemonic ≠ "fconst"
      cases test <;> decide
    | ret => exact (by decide : "return" ≠ "const" ∧ "return" ≠ "fconst")
  operands name hname := by
    obtain ⟨i, -, rfl⟩ := List.mem_map.1 hname
    exact isValueName_toString i
  ty name hname := by
    obtain ⟨ty, -, rfl⟩ := Option.map_eq_some_iff.1 hname
    exact isIdentifier_name ty

theorem plain_paramsFrom (next : Nat) (tys : List Ty) : ∀ param ∈ paramsFrom next tys,
    Scanner.isValueName param.1.toList = true ∧ Scanner.isIdentifier param.2.toList = true := by
  induction tys generalizing next with
  | nil => exact fun param hparam => nomatch hparam
  | cons ty tys ih =>
    intro param hparam
    rcases List.mem_cons.1 hparam with rfl | hparam
    · exact ⟨isValueName_toString next, isIdentifier_name ty⟩
    · exact ih (next + 1) param hparam

namespace Store

variable {s : Store} {p : Program} {n : Numbering}

theorem Lists.plain {ops done : List OpId} {lines : List Line} (h : Lists s n ops lines)
    (hflow : s.Flow p done ops) : ∀ line ∈ lines, line.Plain := by
  induction h generalizing done with
  | nil n => exact fun line hline => nomatch hline
  | cons entry numbers more ih =>
    obtain ⟨⟨d, hd, hfits⟩, hrest⟩ := hflow
    rw [entry] at hd
    cases hd
    intro line hline
    rcases List.mem_cons.1 hline with rfl | hline
    · exact Operation.plain_line hfits.typed _ _
    · exact ih hrest line hline

theorem Lists.unplaced {ops : List OpId} {lines : List Line} (h : Lists s n ops lines) :
    lines.map Line.unplaced = lines := by
  induction h with
  | nil n => rfl
  | cons entry numbers more ih =>
    rw [List.map_cons, ih]
    rfl

/-- **The text of a program whose operations flow is taken apart** into the listing that it is
printed as, up to the places of the lines. -/
theorem ofText_print (hs : s.Owned) {ops : List OpId} (hops : p.ops s = .ok ops)
    (hflow : s.Flow p [] ops) (hname : Scanner.isIdentifier p.name.toList = true) :
    ∃ text lines found, p.print s = .ok text ∧
      Lists s (Numbering.start.assignAll (p.inputs s)) ops lines ∧
      ofText text = .ok ⟨⟨p.name, paramsFrom 0 (s.argTys p.entry)⟩, found⟩ ∧
      found.map Line.unplaced = lines := by
  obtain ⟨lines, hlines⟩ := (covers_inputs s p).lists hflow
  obtain ⟨text, hprint, htext⟩ := print_ok hs hops hlines
  have hplain : (s.listing p lines).Plain :=
    ⟨⟨hname, plain_paramsFrom 0 _⟩, hlines.plain hflow⟩
  obtain ⟨found, hfound, hunplaced⟩ := ofText_text hplain htext
  exact ⟨text, lines, found, hprint, hlines, hfound, hunplaced.trans hlines.unplaced⟩

end Store

end Mba
