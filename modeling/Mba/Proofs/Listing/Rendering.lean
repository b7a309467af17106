import Mba.Proofs.Listing.Scanning

/-!
# Listings are scanned back

The text of a listing in the form in which programs are printed, with one blank where one is needed.
`Plain` says what a listing must be like for its text to be taken apart into the same parts; only
the places of the lines are not kept.

Results:
* `Scanner.line_text`, `Scanner.header_text`: a line and a header are taken back.
* `scanLines_text`: so are the lines of a program, up to the closing brace.
* `ofText_text`: the text of a plain listing is taken apart into the listing.
-/

namespace Mba.Listing

open Scanner

/-! ## Texts -/

def Literal.text : Literal → List Char
  | .int value => (toString value).toList
  | .double x => x.text.toList

/-- The name of a value behind its `%`. -/
def operandText (name : String) : List Char :=
  '%' :: name.toList

def paramText (param : String × String) : List Char :=
  operandText param.1 ++ ':' :: ' ' :: param.2.toList

namespace Line

def resultText (line : Line) : List Char :=
  match line.result? with
  | some name => operandText name ++ [' ', '=', ' ']
  | none => []

def literalText (line : Line) : List Char :=
  match line.literal? with
  | some literal => ' ' :: literal.text
  | none => []

def operandsText (line : Line) : List Char :=
  if line.operands.isEmpty then []
  else ' ' :: [',', ' '].intercalate (line.operands.map operandText)

def tyText (line : Line) : List Char :=
  match line.ty? with
  | some ty => ' ' :: ':' :: ' ' :: ty.toList
  | none => []

/-- The text of a line as programs are printed. -/
def text (line : Line) : List Char :=
  line.resultText ++
    (line.mnemonic.toList ++ (line.literalText ++ (line.operandsText ++ line.tyText)))

/-- The line without its place. -/
def unplaced (line : Line) : Line :=
  { line with offset := 0 }

/-- A line that is taken back from its text. -/
structure Plain (line : Line) : Prop where
  result : ∀ name ∈ line.result?, isValueName name.toList = true
  mnemonic : isMnemonic line.mnemonic.toList = true
  literal : match line.literal? with
    | some (.int value) => line.mnemonic = "const" ∧ -2 ^ 63 ≤ value ∧ value < 2 ^ 63
    | some (.double x) => line.mnemonic = "fconst" ∧ x.canonical = x
    | none => line.mnemonic ≠ "const" ∧ line.mnemonic ≠ "fconst"
  operands : ∀ name ∈ line.operands, isValueName name.toList = true
  ty : ∀ ty ∈ line.ty?, isIdentifier ty.toList = true

end Line

/-- The text of a header, up to and with the opening brace. -/
def Header.text (header : Header) : List Char :=
  "program".toList ++ (' ' :: '@' :: (header.name.toList ++
    '(' :: ([',', ' '].intercalate (header.params.map paramText) ++ [')', ' ', '\x7b'])))

structure Header.Plain (header : Header) : Prop where
  name : isIdentifier header.name.toList = true
  params : ∀ param ∈ header.params,
    isValueName param.1.toList = true ∧ isIdentifier param.2.toList = true

/-- The lines of a program with two blanks before each of them, and the closing brace. -/
def linesText (lines : List Line) : List Char :=
  lines.flatMap (fun line => ' ' :: ' ' :: (line.text ++ ['\n'])) ++ ['\x7d', '\n']

end Listing

def Listing.text (listing : Listing) : List Char :=
  listing.header.text ++ '\n' :: Listing.linesText listing.lines

/-- A listing that is taken back from its text. -/
structure Listing.Plain (listing : Listing) : Prop where
  header : listing.header.Plain
  lines : ∀ line ∈ listing.lines, line.Plain

namespace Listing

open Scanner

/-! ## What stops a token -/

/-- The text is at its end, or goes on with a blank. -/
def AtBlank (rest : List Char) : Prop :=
  rest = [] ∨ ∃ more, rest = ' ' :: more

theorem AtBlank.append {front rest : List Char} (h : AtBlank front) (hrest : AtBlank rest) :
    AtBlank (front ++ rest) := by
  rcases h with rfl | ⟨more, rfl⟩
  · exact hrest
  · exact .inr ⟨more ++ rest, rfl⟩

theorem AtBlank.stopsAt {rest : List Char} (h : AtBlank rest) {inClass : Char → Bool}
    (hblank : inClass ' ' = false) : StopsAt inClass rest := by
  rcases h with rfl | ⟨more, rfl⟩
  · exact stopsAt_nil _
  · exact stopsAt_cons hblank _

theorem AtBlank.head?_ne {rest : List Char} (h : AtBlank rest) {c : Char} (hc : ' ' ≠ c) :
    rest.head? ≠ some c := by
  rcases h with rfl | ⟨more, rfl⟩
  · exact fun heq => nomatch heq
  · exact fun heq => hc (Option.some.inj heq)

theorem Line.atBlank_literalText (line : Line) : AtBlank line.literalText := by
  unfold literalText
  split
  · exact .inr ⟨_, rfl⟩
  · exact .inl rfl

theorem Line.atBlank_operandsText (line : Line) : AtBlank line.operandsText := by
  unfold operandsText
  split
  · exact .inl rfl
  · exact .inr ⟨_, rfl⟩

theorem Line.atBlank_tyText (line : Line) : AtBlank line.tyText := by
  unfold tyText
  split
  · exact .inr ⟨_, rfl⟩
  · exact .inl rfl

theorem stopsAt_dropWhile (inClass : Char → Bool) (text : List Char) :
    StopsAt inClass (text.dropWhile inClass) := by
  intro c hc
  have := List.head?_dropWhile_not inClass text
  rw [hc] at this
  exact this

theorem stopsAt_append {inClass : Char → Bool} {front : List Char} (hne : front ≠ [])
    (h : ∀ c ∈ front, inClass c = false) (rest : List Char) : StopsAt inClass (front ++ rest) := by
  cases front with
  | nil => exact absurd rfl hne
  | cons c front => exact stopsAt_cons (h c List.mem_cons_self) _

theorem isSpace_of_isBlank {c : Char} (h : isSpace c = false) : isBlank c = false := by
  simp only [isSpace, Bool.or_eq_false_iff] at h
  simp [isBlank, h]

theorem not_isSpace_of_isAlphanum {c : Char} (h : c.isAlphanum = true) : isSpace c = false := by
  refine Bool.eq_false_iff.2 fun hspace => ?_
  simp only [isSpace, Bool.or_eq_true, decide_eq_true_eq] at hspace
  rcases hspace with (((rfl | rfl) | rfl) | rfl) | rfl <;> exact absurd h (by decide)

theorem not_isSpace_of_isNameChar {c : Char} (h : isNameChar c = true) : isSpace c = false := by
  rw [isNameChar, Bool.or_eq_true] at h
  rcases h with h | h
  · exact not_isSpace_of_isAlphanum h
  · rw [of_decide_eq_true h]
    rfl

theorem not_isSpace_of_isNumberChar {c : Char} (h : Double.IsNumberChar c) : isSpace c = false := by
  rcases h with h | rfl | rfl | rfl
  · exact not_isSpace_of_isAlphanum h
  · rfl
  · rfl
  · rfl

/-! ## The characters of a line -/

theorem isNumberChar_of_mem_toString {value : Int} :
    ∀ c ∈ (toString value).toList, Double.IsNumberChar c := by
  have hdigits : ∀ n : Nat, ∀ c ∈ Nat.toDigits 10 n, Double.IsNumberChar c := by
    intro n c hc
    refine .inl ?_
    rw [Char.isAlphanum, isDigit_of_mem_toDigits c hc, Bool.or_true]
  intro c hc
  rw [Int.toString_eq_repr, Int.repr_eq_if] at hc
  split at hc
  · exact hdigits _ c (Nat.toList_repr ▸ hc)
  · rw [String.toList_append, Nat.toList_repr] at hc
    rcases List.mem_append.1 hc with hsign | hc
    · exact .inr (.inr (.inl (List.mem_singleton.1 hsign)))
    · exact hdigits _ c hc

theorem toString_int_ne_nil (value : Int) : (toString value).toList ≠ [] := by
  rw [Int.toString_eq_repr, Int.repr_eq_if]
  split
  · rw [Nat.toList_repr]
    exact Nat.toDigits_ne_nil
  · rw [String.toList_append]
    exact List.append_ne_nil_of_left_ne_nil (by decide) _

/-- The constant is written in the characters of numbers. -/
theorem Line.Plain.literal_chars {line : Line} (h : line.Plain) {literal : Literal}
    (hliteral : line.literal? = some literal) :
    literal.text ≠ [] ∧ ∀ c ∈ literal.text, Double.IsNumberChar c := by
  have hfits := h.literal
  rw [hliteral] at hfits
  cases literal with
  | int value => exact ⟨toString_int_ne_nil value, isNumberChar_of_mem_toString⟩
  | double x =>
    refine ⟨?_, fun c hc => Double.isNumberChar_of_mem_textIn _ hc⟩
    intro heq
    have hread : Double.read? x.text.toList = some x.canonical := Double.read?_textIn _ x
    rw [show x.text.toList = [] from heq] at hread
    cases hread

/-! ## The parts of a line -/

namespace Scanner

variable {line : Line} {rest : List Char}

theorem optional_resultText (h : line.Plain) (hblank : StopsAt isBlank rest)
    (hpercent : rest.head? ≠ some '%') :
    optional (do
        let name ← valueName
        blank
        token ['=']
        blank
        return name) (line.resultText ++ rest) = .ok (line.result?, rest) := by
  unfold Line.resultText
  cases hresult : line.result? with
  | none => exact optional_error (bind_error (bind_error (token_error hpercent)))
  | some name =>
    have hname : valueName (operandText name ++ [' ', '=', ' '] ++ rest) =
        .ok (name, ' ' :: '=' :: ' ' :: rest) := by
      rw [List.append_assoc]
      exact valueName_append (h.result name hresult) (stopsAt_cons rfl _)
    refine optional_ok ((bind_ok hname).trans ?_)
    refine (bind_ok (blank_eq _)).trans ?_
    refine (bind_ok (token_cons '=' _)).trans ?_
    refine (bind_ok (blank_eq _)).trans ?_
    rw [List.dropWhile_cons_of_pos rfl, hblank.dropWhile_eq]
    rfl

/-- Behind the blanks, the constant of a line is taken back, if it has one. -/
theorem literal_literalText (h : line.Plain) (hrest : AtBlank rest) :
    ∃ after, literal line.mnemonic ((line.literalText ++ rest).dropWhile isBlank) =
        .ok (line.literal?, after) ∧ after.dropWhile isBlank = rest.dropWhile isBlank := by
  have hfits := h.literal
  unfold Line.literalText literal
  cases hliteral : line.literal? with
  | none =>
    rw [hliteral] at hfits
    rw [if_neg hfits.1, if_neg hfits.2]
    exact ⟨_, rfl, (stopsAt_dropWhile _ _).dropWhile_eq⟩
  | some constant =>
    obtain ⟨hne, hchars⟩ := h.literal_chars hliteral
    have hblank : (' ' :: constant.text ++ rest).dropWhile isBlank = constant.text ++ rest := by
      rw [List.cons_append, List.dropWhile_cons_of_pos rfl]
      exact (stopsAt_append hne (fun c hc =>
        isSpace_of_isBlank (not_isSpace_of_isNumberChar (hchars c hc))) rest).dropWhile_eq
    rw [hliteral] at hfits
    refine ⟨rest, ?_, rfl⟩
    dsimp only
    rw [hblank]
    cases constant with
    | int value =>
      rw [if_pos hfits.1]
      exact bind_ok (integer_append hfits.2.1 hfits.2.2 (hrest.stopsAt rfl))
    | double x =>
      rw [if_neg (by rw [hfits.1]; decide), if_pos hfits.1]
      refine bind_ok ((double_append x (hrest.stopsAt rfl)).trans ?_)
      rw [hfits.2]

/-- One of the operands of a line, with the blanks around it. -/
theorem takesItems_operand (h : line.Plain) :
    TakesItems (do
        blank
        let name ← valueName
        blank
        return name) operandText (StopsAt isNameChar) (List.dropWhile isBlank) line.operands where
  take name hname rest hrest := by
    refine (bind_ok (blank_eq _)).trans ?_
    refine (bind_ok (valueName_append (h.operands name hname) hrest)).trans ?_
    exact bind_ok (blank_eq _)
  takeSpaced name hname rest hrest := by
    refine (bind_ok (blank_eq _)).trans ?_
    refine (bind_ok (valueName_append (h.operands name hname) hrest)).trans ?_
    exact bind_ok (blank_eq _)
  ends_comma rest := stopsAt_cons rfl rest
  after_comma rest := List.dropWhile_cons_of_neg (by decide)

/-- Behind the blanks, the operands of a line are taken back, if it has any. -/
theorem optional_operandsText (h : line.Plain) (hrest : AtBlank rest)
    (hstop : ∀ c ∈ (rest.dropWhile isBlank).head?, c ≠ ',' ∧ c ≠ '%') :
    ∃ operands?, optional (separated do
        blank
        let name ← valueName
        blank
        return name) ((line.operandsText ++ rest).dropWhile isBlank) =
        .ok (operands?, rest.dropWhile isBlank) ∧ operands?.getD [] = line.operands := by
  unfold Line.operandsText
  cases hoperands : line.operands with
  | nil =>
    have hpercent : (rest.dropWhile isBlank).head? ≠ some '%' := fun hc => (hstop '%' hc).2 rfl
    have hitem : (do
        blank
        let name ← valueName
        blank
        return name) (rest.dropWhile isBlank) =
          (.error (rest.dropWhile isBlank) : Except (List Char) (String × List Char)) := by
      refine (bind_ok (blank_eq _)).trans ?_
      rw [(stopsAt_dropWhile _ _).dropWhile_eq]
      exact bind_error (bind_error (token_error hpercent))
    exact ⟨none, optional_error (bind_error hitem), rfl⟩
  | cons name names =>
    have hitems := takesItems_operand h
    rw [hoperands] at hitems
    refine ⟨some (name :: names), optional_ok ?_, rfl⟩
    rw [if_neg (by simp), List.cons_append, List.dropWhile_cons_of_pos rfl, intercalate_eq,
      List.append_assoc, operandText, List.cons_append, List.dropWhile_cons_of_neg (by decide),
      ← List.cons_append, ← operandText, ← List.append_assoc, ← intercalate_eq]
    exact hitems.separated_append (hrest.stopsAt rfl) fun hc => (hstop ',' hc).1 rfl

/-- Behind the blanks, the type of a line is taken back, if it has one. -/
theorem optional_tyText (h : line.Plain) :
    optional (do
        blank
        token [':']
        blank
        identifier) (line.tyText.dropWhile isBlank) = .ok (line.ty?.map String.toList, []) := by
  unfold Line.tyText
  cases hty : line.ty? with
  | none => exact optional_error ((bind_ok (blank_eq _)).trans (bind_error (token_error nofun)))
  | some ty =>
    have hname := h.ty ty hty
    have hne : ty.toList ≠ [] := by
      intro heq
      rw [heq] at hname
      cases hname
    have hblank : StopsAt isBlank ty.toList := by
      have happend : StopsAt isBlank (ty.toList ++ []) := stopsAt_append hne (fun c hc =>
        isSpace_of_isBlank (not_isSpace_of_isNameChar (isNameChar_of_isIdentifier hname c hc))) []
      rwa [List.append_nil] at happend
    have hidentifier := identifier_append hname (stopsAt_nil _)
    rw [List.append_nil] at hidentifier
    refine optional_ok ?_
    refine (bind_ok (blank_eq _)).trans ?_
    refine (bind_ok (token_cons ':' _)).trans ?_
    refine (bind_ok (blank_eq _)).trans ?_
    rw [List.dropWhile_cons_of_pos rfl, hblank.dropWhile_eq]
    exact hidentifier

/-! ## Lines -/

theorem head?_mnemonic (h : line.Plain) (rest : List Char) :
    ∃ c, (line.mnemonic.toList ++ rest).head? = some c ∧ isNameStart c = true := by
  have hname := h.mnemonic
  cases hchars : line.mnemonic.toList with
  | nil =>
    rw [hchars] at hname
    cases hname
  | cons c more =>
    refine ⟨c, rfl, ?_⟩
    rw [hchars, isMnemonic] at hname
    have hhead : isIdentifier ((c :: more).takeWhile isNameChar) = true := by
      split at hname
      · exact hname
      · exact (Bool.and_eq_true_iff.1 (Bool.and_eq_true_iff.1 hname).1).1
    rw [List.takeWhile_cons] at hhead
    split at hhead
    · exact (Bool.and_eq_true_iff.1 hhead).1
    · cases hhead

theorem isNameChar_mnemonic (h : line.Plain) :
    ∀ c ∈ line.mnemonic.toList, isNameChar c = true ∨ c = '.' := by
  have hname := h.mnemonic
  rw [isMnemonic] at hname
  intro c hc
  rw [← List.takeWhile_append_dropWhile (p := isNameChar) (l := line.mnemonic.toList),
    List.mem_append] at hc
  rcases hc with hc | hc
  · exact .inl (List.all_eq_true.1 List.all_takeWhile c hc)
  · split at hname
    · next hdrop =>
      rw [hdrop] at hc
      cases hc
    · next d tail hdrop =>
      obtain ⟨hfront, htail⟩ := Bool.and_eq_true_iff.1 hname
      rw [hdrop] at hc
      rcases List.mem_cons.1 hc with rfl | hc
      · exact .inr (eq_of_beq (Bool.and_eq_true_iff.1 hfront).2)
      · exact .inl (isNameChar_of_isIdentifier htail c hc)

/-- **A line is taken back from its text**, with the place at which it is found. -/
theorem line_text (h : line.Plain) (offset : Nat) :
    Scanner.line offset line.text = .ok ({ line with offset }, []) := by
  obtain ⟨c, hhead, hc⟩ :=
    head?_mnemonic h (line.literalText ++ (line.operandsText ++ line.tyText))
  have hname := isNameChar_of_isNameStart hc
  have hblank : StopsAt isBlank
      (line.mnemonic.toList ++ (line.literalText ++ (line.operandsText ++ line.tyText))) := by
    intro d hd
    obtain rfl := Option.some.inj (hhead.symm.trans hd)
    exact isSpace_of_isBlank (not_isSpace_of_isNameChar hname)
  have hpercent : (line.mnemonic.toList ++
      (line.literalText ++ (line.operandsText ++ line.tyText))).head? ≠ some '%' := by
    rw [hhead]
    rintro heq
    rw [Option.some.inj heq] at hc
    exact absurd hc (by decide)
  have hty : AtBlank line.tyText := line.atBlank_tyText
  have hback : AtBlank (line.operandsText ++ line.tyText) := line.atBlank_operandsText.append hty
  have htail := line.atBlank_literalText.append hback
  have hstop : ∀ c ∈ (line.tyText.dropWhile isBlank).head?, c ≠ ',' ∧ c ≠ '%' := by
    unfold Line.tyText
    split
    · rintro c hc
      obtain rfl : ':' = c := Option.some.inj hc
      decide
    · exact fun _ hc => nomatch hc
  obtain ⟨after, hliteral, hafter⟩ := literal_literalText h hback
  obtain ⟨operands?, hoperands, hgetD⟩ := optional_operandsText h hty hstop
  refine (bind_ok (optional_resultText h hblank hpercent)).trans ?_
  refine (bind_ok (mnemonic_append h.mnemonic (htail.stopsAt rfl)
    (htail.head?_ne (by decide)))).trans ?_
  refine (bind_ok (blank_eq _)).trans ?_
  refine (bind_ok hliteral).trans ?_
  refine (bind_ok (blank_eq _)).trans ?_
  rw [hafter]
  refine (bind_ok hoperands).trans ?_
  refine (bind_ok (optional_tyText h)).trans ?_
  refine (bind_ok (blank_eq _)).trans ?_
  rw [hgetD, Option.map_map]
  have hid : String.ofList ∘ String.toList = id := funext fun _ => String.ofList_toList
  rw [hid, Option.map_id]
  rfl

theorem notMem_newline_name {name : List Char} (h : ∀ c ∈ name, isNameChar c = true) : '\n' ∉ name :=
  fun hc => absurd (h _ hc) (by decide)

theorem notMem_newline_value {name : List Char} (h : isValueName name = true) :
    '\n' ∉ '%' :: name := by
  intro hc
  refine notMem_newline_name (List.all_eq_true.1 (Bool.and_eq_true_iff.1 h).2) ?_
  exact (List.mem_cons.1 hc).resolve_left (by decide)

theorem notMem_newline_operands {names : List String}
    (h : ∀ name ∈ names, isValueName name.toList = true) :
    '\n' ∉ [',', ' '].intercalate (names.map operandText) := by
  cases names with
  | nil => exact List.not_mem_nil
  | cons name names =>
    rw [intercalate_eq, moreItems, List.mem_append, List.mem_flatMap]
    rintro (hc | ⟨other, hother, hc⟩)
    · exact notMem_newline_value (h _ List.mem_cons_self) hc
    · refine notMem_newline_value (h other (List.mem_cons_of_mem _ hother)) ?_
      exact (List.mem_cons.1 ((List.mem_cons.1 hc).resolve_left (by decide))).resolve_left
        (by decide)

/-- The text of a line has no line break. -/
theorem notMem_newline (h : line.Plain) : '\n' ∉ line.text := by
  simp only [Line.text, List.mem_append, not_or]
  refine ⟨?_, ?_, ?_, ?_, ?_⟩
  · unfold Line.resultText
    split
    · next name hresult =>
      rw [List.mem_append, not_or]
      exact ⟨notMem_newline_value (h.result name hresult), by decide⟩
    · exact List.not_mem_nil
  · intro hc
    rcases isNameChar_mnemonic h _ hc with hc | hc
    · exact absurd hc (by decide)
    · cases hc
  · unfold Line.literalText
    split
    · next literal hliteral =>
      rw [List.mem_cons, not_or]
      refine ⟨by decide, fun hc => ?_⟩
      exact absurd (not_isSpace_of_isNumberChar ((h.literal_chars hliteral).2 _ hc)) (by decide)
    · exact List.not_mem_nil
  · unfold Line.operandsText
    split
    · exact List.not_mem_nil
    · rw [List.mem_cons, not_or]
      exact ⟨by decide, notMem_newline_operands h.operands⟩
  · unfold Line.tyText
    split
    · next ty hty =>
      simp only [List.mem_cons, not_or]
      exact ⟨by decide, by decide, by decide,
        notMem_newline_name (isNameChar_of_isIdentifier (h.ty ty hty))⟩
    · exact List.not_mem_nil

/-! ## Headers -/

theorem takesItems_param {params : List (String × String)}
    (h : ∀ param ∈ params, isValueName param.1.toList = true ∧ isIdentifier param.2.toList = true) :
    TakesItems param paramText (StopsAt isNameChar) (List.dropWhile isSpace) params := by
  have htake : ∀ param ∈ params, ∀ rest, StopsAt isNameChar rest →
      Scanner.param (paramText param ++ rest) = .ok (param, rest.dropWhile isSpace) := by
    rintro ⟨name, ty⟩ hparam rest hrest
    obtain ⟨hname, hty⟩ := h _ hparam
    have hne : ty.toList ≠ [] := by
      intro heq
      rw [heq] at hty
      cases hty
    have htail : StopsAt isSpace (ty.toList ++ rest) := stopsAt_append hne
      (fun c hc => not_isSpace_of_isNameChar (isNameChar_of_isIdentifier hty c hc)) rest
    rw [paramText, List.append_assoc, List.cons_append, List.cons_append]
    refine (bind_ok (space_eq _)).trans ?_
    refine (bind_ok (valueName_append hname (stopsAt_cons rfl _))).trans ?_
    refine (bind_ok (space_eq _)).trans ?_
    refine (bind_ok (token_cons ':' _)).trans ?_
    refine (bind_ok (space_eq _)).trans ?_
    rw [List.dropWhile_cons_of_pos rfl, htail.dropWhile_eq]
    refine (bind_ok (identifier_append hty hrest)).trans ?_
    refine (bind_ok (space_eq _)).trans ?_
    rw [String.ofList_toList]
    rfl
  exact ⟨htake, htake, fun rest => stopsAt_cons rfl rest,
    fun rest => List.dropWhile_cons_of_neg (by decide)⟩

/-- Behind white space, the parameters of a header are taken back, if it has any. -/
theorem optional_params {header : Header} (h : header.Plain) (rest : List Char) :
    ∃ params?, optional (separated param)
        (([',', ' '].intercalate (header.params.map paramText) ++ ')' :: rest).dropWhile isSpace) =
        .ok (params?, ')' :: rest) ∧ params?.getD [] = header.params := by
  cases hlist : header.params with
  | nil =>
    have hitem : param (')' :: rest) = .error (')' :: rest) :=
      (bind_ok (space_eq _)).trans (bind_error (bind_error (token_error nofun)))
    exact ⟨none, optional_error (bind_error hitem), rfl⟩
  | cons param params =>
    have hitems := takesItems_param h.params
    rw [hlist] at hitems
    have hpercent : StopsAt isSpace
        ([',', ' '].intercalate ((param :: params).map paramText) ++ ')' :: rest) := by
      rw [intercalate_eq, List.append_assoc]
      exact stopsAt_cons rfl _
    refine ⟨some (param :: params), optional_ok ?_, rfl⟩
    rw [hpercent.dropWhile_eq]
    exact hitems.separated_append (stopsAt_cons rfl _) nofun

/-- **A header is taken back from its text.** -/
theorem header_text {header : Header} (h : header.Plain) (rest : List Char) :
    Scanner.header (header.text ++ rest) = .ok (header, rest) := by
  obtain ⟨params?, hparams, hgetD⟩ := optional_params h (' ' :: '\x7b' :: rest)
  have hspace : StopsAt isSpace ("program".toList ++ (' ' :: '@' :: (header.name.toList ++
      '(' :: ([',', ' '].intercalate (header.params.map paramText) ++
        ')' :: ' ' :: '\x7b' :: rest)))) :=
    stopsAt_append (by decide) (by simp [isSpace]) _
  have htext : header.text ++ rest = "program".toList ++ (' ' :: '@' :: (header.name.toList ++
      '(' :: ([',', ' '].intercalate (header.params.map paramText) ++
        ')' :: ' ' :: '\x7b' :: rest))) := by
    unfold Header.text
    generalize "program".toList = program
    simp only [List.append_assoc, List.cons_append, List.nil_append]
  rw [htext]
  refine (bind_ok (space_eq _)).trans ?_
  rw [hspace.dropWhile_eq]
  refine (bind_ok (token_append "program".toList _)).trans ?_
  refine (bind_ok (space_eq _)).trans ?_
  rw [List.dropWhile_cons_of_pos rfl, List.dropWhile_cons_of_neg (by decide)]
  refine (bind_ok (token_cons '@' _)).trans ?_
  refine (bind_ok (identifier_append h.name (stopsAt_cons rfl _))).trans ?_
  refine (bind_ok (token_cons '(' _)).trans ?_
  refine (bind_ok (space_eq _)).trans ?_
  refine (bind_ok hparams).trans ?_
  refine (bind_ok (space_eq _)).trans ?_
  refine (bind_ok (token_cons ')' _)).trans ?_
  refine (bind_ok (space_eq _)).trans ?_
  refine (bind_ok (token_cons '\x7b' _)).trans ?_
  rw [String.ofList_toList, hgetD]
  rfl

end Scanner

/-! ## Whole texts -/

theorem splitLines_cons (c : Char) (text : List Char) :
    splitLines (c :: text) =
      if c = '\n' then [] :: splitLines text else consToFirst c (splitLines text) := rfl

theorem splitLines_append {line : List Char} (h : '\n' ∉ line) (text : List Char) :
    splitLines (line ++ '\n' :: text) = line :: splitLines text := by
  induction line with
  | nil => rw [List.nil_append, splitLines_cons, if_pos rfl]
  | cons c more ih =>
    obtain ⟨hc, hmore⟩ := not_or.1 (mt List.mem_cons.2 h)
    rw [List.cons_append, splitLines_cons, if_neg (Ne.symm hc), ih hmore]
    rfl

/-- The text of lines, split at its line feeds. -/
theorem splitLines_linesText {lines : List Line} (h : ∀ line ∈ lines, line.Plain) :
    splitLines (linesText lines) =
      lines.map (fun line => ' ' :: ' ' :: line.text) ++ [['\x7d'], []] := by
  induction lines with
  | nil => rfl
  | cons line rest ih =>
    have hline : '\n' ∉ ' ' :: ' ' :: line.text := by
      simp only [List.mem_cons, not_or]
      exact ⟨by decide, by decide, Scanner.notMem_newline (h line List.mem_cons_self)⟩
    have htext : linesText (line :: rest) =
        (' ' :: ' ' :: line.text) ++ '\n' :: linesText rest := by
      simp [linesText]
    rw [htext, splitLines_append hline, ih fun line' h' => h line' (List.mem_cons_of_mem _ h')]
    rfl

/-- The first character of a line is no white space and no brace. -/
theorem Line.Plain.text_eq_cons {line : Line} (h : line.Plain) :
    ∃ c more, line.text = c :: more ∧ isSpace c = false ∧ c ≠ '\x7d' := by
  unfold Line.text Line.resultText
  cases line.result? with
  | some name => exact ⟨'%', _, rfl, rfl, by decide⟩
  | none =>
    obtain ⟨c, hhead, hc⟩ :=
      Scanner.head?_mnemonic h (line.literalText ++ (line.operandsText ++ line.tyText))
    obtain ⟨more, hmore⟩ := List.head?_eq_some_iff.1 hhead
    refine ⟨c, more, hmore, not_isSpace_of_isNameChar (isNameChar_of_isNameStart hc), ?_⟩
    rintro rfl
    exact absurd hc (by decide)

theorem scanLines_cons {offset : Nat} {line : List Char} {more : List (List Char)} {c : Char}
    {tail : List Char} {found : Line} (hdrop : line.dropWhile isSpace = c :: tail)
    (hbrace : c ≠ '\x7d')
    (hline : Scanner.line (offset + (line.length - (c :: tail).length)) (c :: tail) =
      .ok (found, [])) :
    scanLines offset (line :: more) =
      (scanLines (offset + byteLength line + if more.isEmpty then 0 else 1) more).map
        (found :: ·) := by
  conv => lhs; unfold scanLines
  simp only [hdrop]
  split
  · next heq => cases heq
  · next heq => exact absurd (List.cons.inj heq).1 hbrace
  · simp only [hline, endsLine, if_true]

/-- **Lines are taken back from their text**, up to their places. -/
theorem scanLines_text {lines : List Line} (h : ∀ line ∈ lines, line.Plain) (offset : Nat) :
    ∃ found, scanLines offset
        (lines.map (fun line => ' ' :: ' ' :: line.text) ++ [['\x7d'], []]) = .ok found ∧
      found.map Line.unplaced = lines.map Line.unplaced := by
  induction lines generalizing offset with
  | nil => exact ⟨[], rfl, rfl⟩
  | cons line rest ih =>
    have hline := h line List.mem_cons_self
    obtain ⟨c, more, htext, hspace, hbrace⟩ := hline.text_eq_cons
    have hdrop : (' ' :: ' ' :: line.text).dropWhile isSpace = c :: more := by
      rw [List.dropWhile_cons_of_pos rfl, List.dropWhile_cons_of_pos rfl, htext]
      exact (stopsAt_cons hspace more).dropWhile_eq
    have hscan := Scanner.line_text hline
    rw [htext] at hscan
    rw [List.map_cons, List.cons_append, scanLines_cons hdrop hbrace (hscan _)]
    obtain ⟨found, hfound, heq⟩ := ih (fun line' h' => h line' (List.mem_cons_of_mem _ h')) _
    rw [hfound]
    exact ⟨_, rfl, congrArg (line.unplaced :: ·) heq⟩

end Listing

/-- **The text of a plain listing is taken apart into the listing**, up to the places of its
lines. -/
theorem Listing.ofText_text {listing : Listing} (h : listing.Plain) {text : String}
    (htext : text.toList = listing.text) :
    ∃ lines, ofText text = .ok ⟨listing.header, lines⟩ ∧
      lines.map Line.unplaced = listing.lines.map Line.unplaced := by
  have hsplit : splitLines ('\n' :: linesText listing.lines) =
      [] :: (listing.lines.map (fun line => ' ' :: ' ' :: line.text) ++ [['\x7d'], []]) := by
    rw [splitLines_cons, if_pos rfl, splitLines_linesText h.lines]
  have hheader := Scanner.header_text h.header ('\n' :: linesText listing.lines)
  rw [← Listing.text, ← htext] at hheader
  obtain ⟨lines, hlines, heq⟩ := scanLines_text h.lines _
  refine ⟨lines, ?_, heq⟩
  simp only [ofText, hheader, hsplit]
  rw [show ∀ offset more, scanLines offset ([] :: more) = scanLines _ more from fun _ _ => rfl,
    hlines]
  rfl

end Mba
