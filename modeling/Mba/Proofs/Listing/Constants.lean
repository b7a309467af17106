import Mba.Proofs.Listing.Refusals
import Mba.Proofs.Numerals

/-!
# Integer constants

There are two readers of integers: one for the values that a program is run with, and one for the
constants in the text of a program. The second one takes decimal numerals without leading zeros
only. On these the two agree about what is an integer of a type, and about its bits.

Results:
* `IsConstant.read`: the number that a constant stands for, to both readers.
* `line_constantText`, `assemble_append_constant`: the line of a constant is scanned and built.
* `Scalar.read?_int_spec`: which texts are integers of a width, and where a constant is accepted.
-/

namespace Mba

open Listing Store

namespace Listing

open Scanner

variable {text rest : List Char}

/-! ## The numbers of constants -/

/-- An optional `-`, and `0` or digits that do not start with `0`. -/
def IsConstant (text : List Char) : Prop :=
  ∃ (negative : Bool) (digits : List Char), text = (if negative then ['-'] else []) ++ digits ∧
    (∀ c ∈ digits, c.isDigit = true) ∧ (digits = ['0'] ∨ digits ≠ [] ∧ digits.head? ≠ some '0')

theorem naturalDigits_append {digits : List Char} (hdigits : ∀ c ∈ digits, c.isDigit = true)
    (hzero : digits = ['0'] ∨ digits ≠ [] ∧ digits.head? ≠ some '0')
    (hrest : StopsAt Char.isDigit rest) : naturalDigits (digits ++ rest) = .ok (digits, rest) := by
  rcases hzero with rfl | ⟨hne, hhead⟩
  · rfl
  · unfold naturalDigits
    split
    · next more heq =>
      cases digits with
      | nil => exact absurd rfl hne
      | cons c digits => exact absurd (congrArg some (List.cons.inj heq).1) hhead
    · exact takeSome_append hdigits hne hrest

/-- **The number that a constant stands for.** Both readers find it, each within its range. -/
theorem IsConstant.read (h : IsConstant text) : ∃ value : Int,
    (∀ w, Scalar.readInt? w text = Scalar.ofSigned? w value) ∧
      ∀ rest, StopsAt Char.isDigit rest → Scanner.integer (text ++ rest) =
        if -2 ^ 63 ≤ value ∧ value < 2 ^ 63 then .ok (value, rest) else .error rest := by
  obtain ⟨negative, digits, rfl, hdigits, hzero⟩ := h
  have hne : digits ≠ [] := hzero.elim (fun h => h ▸ List.cons_ne_nil _ _) And.left
  obtain ⟨hsign, hbase⟩ := Numeral.digits_front hdigits
  have hdecimal := Numeral.decimal?_digits hdigits hne
  set n := Nat.ofDigitChars 10 digits 0 with hn
  -- magnitudes of more than 64 bits, which only one reader excludes by themselves, are in no range
  have hfits : ∀ w (f : Nat → Int), (f n).natAbs = n →
      ((Numeral.fits64? n).bind fun n => Scalar.ofSigned? w (f n)) = Scalar.ofSigned? w (f n) := by
    intro w f hf
    unfold Numeral.fits64?
    split
    · rfl
    · next hlarge => exact (Scalar.ofSigned?_eq_none (by omega)).symm
  have hscan : ∀ rest, StopsAt Char.isDigit rest →
      naturalDigits (digits ++ rest) = .ok (digits, rest) :=
    fun rest hrest => naturalDigits_append hdigits hzero hrest
  have hreturn : ∀ (value : Int) (rest : List Char),
      ((if -2 ^ 63 ≤ value ∧ value < 2 ^ 63 then return value else fail) : Scanner Int) rest =
        if -2 ^ 63 ≤ value ∧ value < 2 ^ 63 then .ok (value, rest) else .error rest := by
    intro value rest
    split <;> rfl
  cases negative with
  | true =>
    refine ⟨-(n : Int), fun w => ?_, fun rest hrest => ?_⟩
    · show Scalar.readInt? w ('-' :: digits) = _
      rw [Scalar.readInt?_negative hbase, hdecimal, hfits w (fun n => -(n : Int)) (by simp)]
    · refine (bind_ok (optional_ok (token_cons '-' _))).trans ?_
      exact (bind_ok (hscan rest hrest)).trans (hreturn _ rest)
  | false =>
    refine ⟨n, fun w => ?_, fun rest hrest => ?_⟩
    · show Scalar.readInt? w digits = _
      rw [Scalar.readInt?_digits hsign hbase, hdecimal, hfits w (fun n => (n : Int)) (by simp)]
    · have hhead : (digits ++ rest).head? ≠ some '-' := by
        rwa [List.head?_append_of_ne_nil _ hne]
      refine (bind_ok (optional_error (token_error hhead))).trans ?_
      exact (bind_ok (hscan rest hrest)).trans (hreturn _ rest)

/-! ## The line of a constant -/

/-- `%name = const literal : type`. -/
def constantText (name : String) (literal : List Char) (ty : Ty) : List Char :=
  operandText name ++ (" = const ".toList ++ (literal ++ (" : ".toList ++ ty.name.toList)))

def constantLine (offset : Nat) (name : String) (value : Int) (ty : Ty) : Line :=
  ⟨offset, some name, "const", some (.int value), [], some ty.name⟩

theorem IsConstant.chars (h : IsConstant text) :
    text ≠ [] ∧ ∀ c ∈ text, c = '-' ∨ c.isDigit = true := by
  obtain ⟨negative, digits, rfl, hdigits, hzero⟩ := h
  have hne : digits ≠ [] := hzero.elim (fun h => h ▸ List.cons_ne_nil _ _) And.left
  refine ⟨by simp [hne], fun c hc => ?_⟩
  rcases List.mem_append.1 hc with hc | hc
  · cases negative with
    | true => exact .inl (List.mem_singleton.1 hc)
    | false => cases hc
  · exact .inr (hdigits c hc)

theorem not_isSpace_of_constantChar {c : Char} (h : c = '-' ∨ c.isDigit = true) :
    isSpace c = false := by
  rcases h with rfl | h
  · rfl
  · exact not_isSpace_of_isAlphanum (by simp [Char.isAlphanum, h])

theorem isIdentifier_tyName (ty : Ty) : isIdentifier ty.name.toList = true := by
  rcases ty with w | _ | _
  · cases w <;> decide
  · decide
  · decide

/-- What is scanned in front of the mnemonic of a constant. -/
theorem resultName_constantText {name : String} (hname : isValueName name.toList = true)
    (text : List Char) (ty : Ty) : optional resultName (constantText name text ty) =
      .ok (some name, "const".toList ++ ' ' :: (text ++ (" : ".toList ++ ty.name.toList))) := by
  refine optional_ok ?_
  refine (bind_ok (valueName_append hname (stopsAt_cons rfl _))).trans ?_
  refine (bind_ok (blank_eq _)).trans ?_
  refine (bind_ok (token_cons '=' _)).trans ?_
  exact (bind_ok (blank_eq _)).trans rfl

theorem IsConstant.dropWhile_blank (h : IsConstant text) (rest : List Char) :
    (' ' :: (text ++ rest)).dropWhile isBlank = text ++ rest := by
  obtain ⟨hne, hchars⟩ := h.chars
  rw [List.dropWhile_cons_of_pos rfl]
  exact (stopsAt_append hne (fun c hc =>
    isSpace_of_isBlank (not_isSpace_of_constantChar (hchars c hc))) _).dropWhile_eq

theorem operands_colon (rest : List Char) :
    optional (separated operand) (':' :: rest) = .ok (none, ':' :: rest) :=
  optional_error (bind_error ((bind_ok (blank_eq _)).trans
    (bind_error (bind_error (token_error (by simp [isBlank]))))))

theorem lineType_tyName (ty : Ty) :
    optional lineType (':' :: ' ' :: ty.name.toList) = .ok (some ty.name.toList, []) := by
  have hidentifier := isIdentifier_tyName ty
  have hne : ty.name.toList ≠ [] := by
    intro hnil
    rw [hnil] at hidentifier
    cases hidentifier
  have hstop : StopsAt isBlank (ty.name.toList ++ []) :=
    stopsAt_append hne (fun c hc => isSpace_of_isBlank (not_isSpace_of_isNameChar
      (isNameChar_of_isIdentifier hidentifier c hc))) []
  have hty := identifier_append hidentifier (stopsAt_nil _)
  rw [List.append_nil] at hstop hty
  refine optional_ok ?_
  refine (bind_ok (blank_eq _)).trans ?_
  refine (bind_ok (token_cons ':' _)).trans ?_
  refine (bind_ok (blank_eq _)).trans ?_
  rw [List.dropWhile_cons_of_pos rfl, hstop.dropWhile_eq, hty]

/-- **The line of a constant is scanned** if the number is in the range of the scanner. -/
theorem line_constantText {name : String} (hname : isValueName name.toList = true) {value : Int}
    (hconstant : IsConstant text)
    (hscan : ∀ rest, StopsAt Char.isDigit rest → Scanner.integer (text ++ rest) =
      if -2 ^ 63 ≤ value ∧ value < 2 ^ 63 then .ok (value, rest) else .error rest)
    (ty : Ty) (offset : Nat) : Scanner.line offset (constantText name text ty) =
      if -2 ^ 63 ≤ value ∧ value < 2 ^ 63 then .ok (constantLine offset name value ty, [])
      else .error (" : ".toList ++ ty.name.toList) := by
  have hmnemonic : isMnemonic "const".toList = true := rfl
  have hinteger := hscan (" : ".toList ++ ty.name.toList) (stopsAt_cons rfl _)
  rw [line_eq]
  unfold lineFront
  simp only [bind_assoc, pure_bind]
  refine (bind_ok (resultName_constantText hname text ty)).trans ?_
  refine (bind_ok (mnemonic_append hmnemonic (stopsAt_cons rfl _) (by simp))).trans ?_
  refine (bind_ok (blank_eq _)).trans ?_
  rw [hconstant.dropWhile_blank]
  split
  · next hrange =>
    rw [if_pos hrange] at hinteger
    refine (bind_ok (bind_ok hinteger)).trans ?_
    refine (bind_ok (blank_eq _)).trans ?_
    refine (bind_ok (operands_colon _)).trans ?_
    refine (bind_ok (bind_ok (lineType_tyName ty))).trans ?_
    rw [Option.map_some, String.ofList_toList]
    rfl
  · next hrange =>
    rw [if_neg hrange] at hinteger
    exact bind_error (bind_error hinteger)

theorem notMem_constantText {name : String} (hname : isValueName name.toList = true)
    (hconstant : IsConstant text) (ty : Ty) : '\n' ∉ constantText name text ty := by
  have hvalue := notMem_newline_value hname
  rw [List.mem_cons, not_or] at hvalue
  have hty := notMem_newline_name (isNameChar_of_isIdentifier (isIdentifier_tyName ty))
  have htext : '\n' ∉ text := fun hin =>
    absurd (not_isSpace_of_constantChar (hconstant.chars.2 '\n' hin)) (by decide)
  simp [constantText, operandText, hvalue, hty, htext]

variable {s s' : Store} {p : Program} {names : Names} {start : Nat} {done : List OpId}

/-- **The line of a constant is built** just if the number is in the range of its width. -/
theorem Line.assemble_constant (hs : Assembled s p start done names) {name : String}
    (hfree : names.lookup name = none) (w : Width) (value : Int) (offset : Nat) :
    (w.signed (w.ofInt value) = value →
      ∃ names' s', (constantLine offset name value (.int w)).assemble p names s = .done names' s' ∧
        s.Emitted p.entry (done ++ [⟨s.ops.size⟩])
          ⟨.const (w.ofInt value), [], some (.int w), none⟩ s') ∧
    (w.signed (w.ofInt value) ≠ value →
      ∃ e, (constantLine offset name value (.int w)).assemble p names s = .failed e s) := by
  set line := constantLine offset name value (.int w)
  have hinstruction : line.instruction? = some (.int value) := rfl
  have hoperands : check (line.operands.mapM (names.resolve line.offset)) s = .done [] s := rfl
  have hty : line.ty?.mapM (fun name => readTy name line.offset) = .ok (some (.int w)) :=
    readTy?_name (some (.int w)) line.offset
  constructor
  · intro hfits
    have hasks : line.Asks (some (.int w)) [] (.int (.int w) value) := by
      refine .int hinstruction rfl rfl ?_
      rintro _ ⟨⟩
      exact hfits
    obtain ⟨target, htarget, hops⟩ := ops_eq_ok_iff.1 hs.built.listed
    obtain ⟨s', hgive, he⟩ := (Builder.Call.Makes.int w value).give_eq_done hs.built.consistent
      (.atEnd p.entry) htarget (congrArg (· ++ _) hops.symm) []
    have hvalue : s'.valueTy ⟨s.values.size⟩ = .ok (.int w) := by
      rw [valueTy_eq_ok_iff, he.values]
      simp
    have hbinds : line.Binds s' names (some (.int w)) (some ⟨s.values.size⟩)
        ((name, ⟨s.values.size⟩) :: names) := by
      refine .value rfl hvalue ?_ hfree
      rintro _ ⟨⟩
      rfl
    exact ⟨_, s', Line.assemble_eq_done.2 ⟨[], some (.int w), _, _, rfl, hty, hasks,
      call_done line.offset hgive, hbinds⟩, he⟩
  · intro hwrong
    have horder : line.order [] (some (.int w)) = .error ⟨.literalRange value (.int w), offset⟩ := by
      have hconstant : line.constantTy value (some (.int w)) =
          .error ⟨.literalRange value (.int w), offset⟩ := by
        have : line.offset = offset := rfl
        simp [Line.constantTy, Ty.width?, hwrong, this]
      unfold Line.order
      rw [hinstruction]
      exact bind_eq_error.2 (.inr ⟨(), rfl, bind_eq_error.2 (.inl hconstant)⟩)
    refine ⟨⟨.literalRange value (.int w), offset⟩, ?_⟩
    unfold Line.assemble
    rw [Edit.bind_done hoperands, hty, Edit.bind_done (check_ok _ s), line.emit_eq, horder]
    rfl

/-- The names that are given to values. -/
def valueNames (listing : Listing) : List String :=
  listing.header.params.map (·.1) ++ listing.lines.filterMap (·.result?)

/-- A name that is not in a listing is free behind it. -/
theorem exists_namesAfter {listing : Listing} {s₀ : Store} (hs₀ : s₀.Consistent)
    (h : listing.assemble s₀ = .done p s) :
    ∃ first names s₁ ops, listing.header.create s₀ = .done (p, first) s₁ ∧
      namesAfter p listing.lines first s₁ = .done names s ∧
      Assembled s p s₀.ops.size ops names ∧
      ∀ name ∉ listing.valueNames, names.lookup name = none := by
  obtain ⟨first, names, s₁, hcreate, hlines⟩ := assemble_eq_done.1 h
  obtain ⟨-, hs₁, hparams, -⟩ := Header.create_done hs₀ hcreate
  obtain ⟨ops, hs, hresults⟩ := hs₁.namesAfter hlines
  refine ⟨first, names, s₁, ops, hcreate, hlines, hs, fun name hname => ?_⟩
  rw [List.lookup_eq_none_iff]
  intro entry hentry
  refine bne_iff_ne.2 ?_
  rintro rfl
  refine hname (List.mem_append.2 ?_)
  rcases hresults entry hentry with hold | ⟨line, hline, hresult⟩
  · exact .inl (hparams entry hold)
  · exact .inr (List.mem_filterMap.2 ⟨line, hline, hresult⟩)

/-- What is built for a listing with one more line. -/
theorem assemble_append_line {header : Header} {lines : List Line} {s₀ s₁ : Store}
    {first names : Names} (hcreate : header.create s₀ = .done (p, first) s₁)
    (hlines : namesAfter p lines first s₁ = .done names s) (line : Line) :
    (∀ names', line.assemble p names s = .done names' s' →
      (Listing.mk header (lines ++ [line])).assemble s₀ = .done p s') ∧
    ∀ e, line.assemble p names s = .failed e s' →
      (Listing.mk header (lines ++ [line])).assemble s₀ = .failed e s' := by
  have hlonger : namesAfter p (lines ++ [line]) first s₁ = line.assemble p names s := by
    rw [namesAfter_append, Edit.bind_done hlines, namesAfter_singleton]
  exact ⟨fun names' h => assemble_eq_done.2 ⟨first, names', s₁, hcreate, hlonger.trans h⟩,
    fun e h => assemble_eq_failed.2 (.inr ⟨p, first, s₁, hcreate, hlonger.trans h⟩)⟩

/-- **A constant at the end of a listing** is built just if its number is in the range of its width.
If it is not, the error points at its line. -/
theorem assemble_append_constant {listing : Listing} {s₀ : Store} (hs₀ : s₀.Consistent)
    (h : listing.assemble s₀ = .done p s) {name : String} (hname : name ∉ listing.valueNames)
    (w : Width) (value : Int) (offset : Nat) :
    let longer : Listing :=
      ⟨listing.header, listing.lines ++ [constantLine offset name value (.int w)]⟩
    (w.signed (w.ofInt value) = value → ∃ s' ops o, longer.assemble s₀ = .done p s' ∧
      p.ops s = .ok ops ∧ p.ops s' = .ok (ops ++ [o]) ∧
      s'.opcode? o = some (.const (w.ofInt value)) ∧ s'.resultTy? o = some (.int w)) ∧
    (w.signed (w.ofInt value) ≠ value → ∃ e s', longer.assemble s₀ = .failed e s' ∧
      e.offset = offset) := by
  intro longer
  obtain ⟨first, names, s₁, ops, hcreate, hlines, hs, hfree⟩ := exists_namesAfter hs₀ h
  obtain ⟨hbuilt, hfailed⟩ := Line.assemble_constant hs (hfree name hname) w value offset
  constructor
  · intro hfits
    obtain ⟨names', s', hdone, he⟩ := hbuilt hfits
    have hs' := hs.built.emitted (fun _ hv => absurd hv List.not_mem_nil) (.const _ w) he
    have hentry := he.entry
    refine ⟨s', ops, _, (assemble_append_line hcreate hlines _).1 names' hdone, hs.built.listed,
      hs'.listed, ?_, resultTy?_eq hentry⟩
    rw [Store.opcode?, hentry]
    rfl
  · intro hwrong
    obtain ⟨e, hline⟩ := hfailed hwrong
    exact ⟨e, s, (assemble_append_line hcreate hlines _).2 e hline,
      Line.assemble_failsAt _ p names s e s hline⟩

end Listing

/-- **A constant behind a program is accepted** just if its text is an integer of its type, and is
built with the same bits. -/
theorem Program.read_constant {s₀ s : Store} {p : Program} (hs₀ : s₀.Reachable)
    {front text : List Char} (hread : Program.read (String.ofList (front ++ ['\x7d'])) s₀ = .done p s)
    {name : String} (hname : Scanner.isValueName name.toList = true)
    (hnew : ∀ listing, Listing.ofText (String.ofList (front ++ ['\x7d'])) = .ok listing →
      name ∉ listing.valueNames)
    (hconstant : IsConstant text) (w : Width) :
    (∀ bits, Scalar.readInt? w text = some (.int w bits) → ∃ s' ops o,
      Program.read (String.ofList (front ++ (constantText name text (.int w) ++ ['\n', '\x7d']))) s₀ =
          .done p s' ∧
        p.ops s = .ok ops ∧ p.ops s' = .ok (ops ++ [o]) ∧
        s'.opcode? o = some (.const bits) ∧ s'.resultTy? o = some (.int w)) ∧
    (Scalar.readInt? w text = none → ∃ e s',
      Program.read (String.ofList (front ++ (constantText name text (.int w) ++ ['\n', '\x7d']))) s₀ =
          .failed e s' ∧ e.offset = (String.ofList front).utf8ByteSize) := by
  obtain ⟨listing, _, hcheck, -⟩ := Edit.bind_eq_done.1 hread
  have htext := (check_done hcheck).1
  rw [Program.read_listing htext] at hread
  have hopens : Opens front listing.header listing.lines := opens_of_brace htext
  obtain ⟨value, hvalue, hscan⟩ := hconstant.read
  have hline := line_constantText hname hconstant hscan (.int w) (byteLength front)
  have hfeed := notMem_constantText hname hconstant (.int w)
  rw [hvalue, utf8ByteSize_ofList]
  by_cases hrange : -2 ^ 63 ≤ value ∧ value < 2 ^ 63
  · rw [if_pos hrange] at hline
    have hword : IsOperation (byteLength front) (constantText name text (.int w))
        (constantLine (byteLength front) name value (.int w)) :=
      ⟨hfeed, ⟨'%', _, rfl, rfl, by decide⟩, [], hline, rfl⟩
    have htext' := (hopens.append hword.passes).close
    simp only [List.append_assoc, List.singleton_append] at htext'
    rw [Program.read_listing htext']
    obtain ⟨hbuilt, hfailed⟩ := assemble_append_constant hs₀.consistent hread (hnew listing htext) w
      value (byteLength front)
    constructor
    · intro bits hbits
      obtain ⟨hfits, hbits⟩ := Scalar.ofSigned?_eq_some.1 hbits
      cases hbits
      exact hbuilt (Scalar.signed_ofInt_eq_iff.2 hfits)
    · intro hnone
      refine hfailed fun hfits => ?_
      rw [Scalar.ofSigned?, if_pos hfits] at hnone
      cases hnone
  · -- the number is in the range of no width, and the line is not even scanned
    rw [if_neg hrange] at hline
    have herror := hopens.unscanned hfeed ⟨'%', _, rfl, rfl, by decide⟩ hline ['\x7d']
    constructor
    · intro bits hbits
      obtain ⟨hfits, -⟩ := Scalar.ofSigned?_eq_some.1 hbits
      exact absurd ⟨by cases w <;> simp only [Width.bits] at hfits <;> omega,
        by cases w <;> simp only [Width.bits] at hfits <;> omega⟩ hrange
    · intro _
      refine ⟨⟨.operation, byteLength front⟩, s₀, ?_, rfl⟩
      rw [Program.read, herror]
      rfl

/-- **The texts of integers of a width, and the constants that are accepted.** A text is read as an
integer if it is an optional `-` and a numeral of at most 64 bits whose number is in range: a
hexadecimal numeral without a sign stands for a pattern of bits, every other text for a signed
number. So the text of an integer without bits above its width is read back. A text that may stand
in a program as a constant is accepted there, under a name that is not in use, just if it is read as
an integer of the type of the constant; the operation that it adds to the program has the same bits.
If it is not accepted, the error points at its line. -/
theorem Scalar.read?_int_spec (w : Width) (text : String) :
    (∀ x, Scalar.read? (.int w) text = some x ↔ ∃ negative hex n bits,
      IsIntText negative hex n text.toList ∧ IsWordOf w negative hex n bits ∧ x = .int w bits) ∧
    (∀ bits, w.wrap bits = bits →
      Scalar.read? (.int w) (Scalar.text (.int w bits)) = some (.int w bits)) ∧
    (IsConstant text.toList → ∀ (s₀ s : Store) (p : Program) (front : List Char) (name : String),
      s₀.Reachable → Program.read (String.ofList (front ++ ['\x7d'])) s₀ = .done p s →
      Scanner.isValueName name.toList = true →
      (∀ listing, Listing.ofText (String.ofList (front ++ ['\x7d'])) = .ok listing →
        name ∉ listing.valueNames) →
      let longer := String.ofList (front ++ (constantText name text.toList (.int w) ++ ['\n', '\x7d']))
      (∀ bits, Scalar.read? (.int w) text = some (.int w bits) → ∃ s' ops o,
        Program.read longer s₀ = .done p s' ∧ p.ops s = .ok ops ∧ p.ops s' = .ok (ops ++ [o]) ∧
          s'.opcode? o = some (.const bits) ∧ s'.resultTy? o = some (.int w)) ∧
      (Scalar.read? (.int w) text = none → ∃ e s',
        Program.read longer s₀ = .failed e s' ∧
          e.offset = (String.ofList front).utf8ByteSize)) := by
  have hvalue (text : String) : Scalar.read? (.int w) text = readInt? w text.toList := rfl
  refine ⟨fun x => ?_, fun bits hbits => ?_, ?_⟩
  · rw [hvalue]
    exact readInt?_eq_some
  · rw [hvalue]
    exact readInt?_text hbits
  · intro hconstant s₀ s p front name hs₀ hread hname hnew
    rw [hvalue]
    exact Program.read_constant hs₀ hread hname hnew hconstant w

/-- The smallest integer of eight bits is read, and accepted as a constant. -/
theorem Scalar.read?_int_smallest :
    let front := "program @least() \x7b\n".toList
    Scalar.read? (.int .w8) "-128" = some (.int .w8 0x80) ∧ ∃ p s o,
      Program.read (String.ofList (front ++ (constantText "c" "-128".toList (.int .w8) ++
        ['\n', '\x7d']))) empty = .done p s ∧ p.ops s = .ok [o] ∧
        s.opcode? o = some (.const 0x80) := by
  intro front
  have hfound : ((Program.read (String.ofList (front ++ ['\x7d'])) empty).done?.any fun found =>
      found.1.ops found.2 = .ok []) = true := by decide +kernel
  obtain ⟨⟨p, s⟩, hdone, hops⟩ := (Option.any_eq_true _ _).1 hfound
  have hread := Outcome.done?_eq_some_iff.1 hdone
  have hvalue : Scalar.read? (.int .w8) "-128" = some (.int .w8 0x80) := by decide +kernel
  have hconstant : IsConstant "-128".toList :=
    ⟨true, ['1', '2', '8'], rfl, List.all_eq_true.1 rfl, .inr ⟨by simp, by simp⟩⟩
  obtain ⟨haccepted, -⟩ := (Scalar.read?_int_spec .w8 "-128").2.2 hconstant empty s p front "c" .empty
    hread (by decide) fun listing hlisting => by
      have hnames : ((Listing.ofText (String.ofList (front ++ ['\x7d']))).toOption.any fun listing =>
          listing.valueNames = []) = true := by decide +kernel
      rw [hlisting] at hnames
      rw [of_decide_eq_true hnames]
      exact List.not_mem_nil
  obtain ⟨s', ops, o, hread', hops', hlonger, hopcode, -⟩ := haccepted _ hvalue
  obtain rfl : ops = [] := Except.ok.inj (hops'.symm.trans (of_decide_eq_true hops))
  exact ⟨hvalue, p, s', o, hread', hlonger, hopcode⟩

end Mba
