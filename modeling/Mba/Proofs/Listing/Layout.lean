import Mba.Proofs.Listing.Prefixes
import Mba.Proofs.Listing.Rewording

/-!
# Lines in other words

A text that is accepted may be changed in its layout: line by line, it is still accepted, and says
the same in other words. For each change there is a variation, or a front of white space, under
which the lines are scanned alike.

Results:
* `takes_line`, `Accepts.notMem`: what stands in an accepted line.
* `RewordsLines.cons`: lines that are changed one by one.
* `Accepts.of_related`: what is accepted is scanned alike under a variation.
* `RewordsLine.of_related`, `RewordsLines.of_related`: names and the blanks around marks.
* `rewordsLine_lineEnd`: blanks and carriage returns at the ends of lines.
* `rewordsLine_unannotated`: annotations that are left out.
* `rewordsLines_space`: white space in front of lines.
-/

namespace Mba.Listing

open Scanner Variation

variable {names : String → String → Prop} {offset : Nat} {found : Line}

/-! ## The characters of lines -/

namespace Takes

variable {α : Type} {inClass : Char → Bool} {m : Scanner α}

theorem fail : Takes inClass (Scanner.fail : Scanner α) := by
  rintro text a rest ⟨⟩

theorem optional (h : Takes inClass m) : Takes inClass (Scanner.optional m) := by
  intro text a? rest hok
  unfold Scanner.optional at hok
  split at hok
  · next hm =>
    cases hok
    exact h _ _ _ hm
  · cases hok
    exact ⟨[], rfl, nofun⟩

theorem itemsAfterComma (hcomma : inClass ',' = true) (h : Takes inClass m) (fuel : Nat) :
    Takes inClass (Scanner.itemsAfterComma m fuel) := by
  induction fuel with
  | zero => exact .pure _
  | succ fuel ih =>
    have hnext : Takes inClass (do Scanner.token [',']; m) :=
      (token fun c hc => by rwa [List.mem_singleton.1 hc]).bind fun _ => h
    refine hnext.optional.bind fun a? => ?_
    cases a? with
    | none => exact .pure _
    | some a => exact ih.bind fun _ => .pure _

theorem separated (hcomma : inClass ',' = true) (h : Takes inClass m) :
    Takes inClass (Scanner.separated m) := by
  have hget : Takes inClass (get : Scanner (List Char)) := by
    rintro text _ _ ⟨⟩
    exact ⟨[], rfl, nofun⟩
  exact h.bind fun _ => hget.bind fun _ => (itemsAfterComma hcomma h _).bind fun _ => .pure _

end Takes

theorem takes_mark {c : Char} (hc : isMark c = true) : Takes isLineChar (token [c]) :=
  .token fun d hd => by simp [isLineChar, List.mem_singleton.1 hd, hc]

theorem takes_blank : Takes isLineChar blank :=
  .blank fun _ => isLineChar_of_isBlank

theorem takes_identifier : Takes isLineChar identifier :=
  .identifier fun _ => isLineChar_of_isNameChar

theorem takes_valueName : Takes isLineChar valueName :=
  .valueName rfl fun _ => isLineChar_of_isNameChar

theorem takes_mnemonic : Takes isLineChar mnemonic := by
  have htail : Takes isLineChar (do token ['.']; identifier) :=
    (Takes.token fun c hc => by rw [List.mem_singleton.1 hc]; rfl).bind fun _ => takes_identifier
  refine takes_identifier.bind fun head => htail.optional.bind fun tail? => ?_
  cases tail? <;> exact .pure _

theorem takes_integer : Takes isLineChar integer := by
  have hdigit : ∀ c : Char, c.isDigit = true → isLineChar c = true := fun c hc =>
    isLineChar_of_isSolid (isSolid_of_isDigit hc)
  have hminus : Takes isLineChar (token ['-']) :=
    .token fun c hc => by rw [List.mem_singleton.1 hc]; rfl
  have hdigits : Takes isLineChar naturalDigits := by
    intro text a rest h
    unfold naturalDigits at h
    split at h
    · cases h
      exact ⟨['0'], rfl, fun c hc => by rw [List.mem_singleton.1 hc]; rfl⟩
    · exact Takes.takeSome hdigit _ _ _ h
  refine hminus.optional.bind fun sign => hdigits.bind fun digits => ?_
  dsimp only
  generalize (if sign.isSome = true then -(Nat.ofDigitChars 10 digits 0 : Int)
    else Nat.ofDigitChars 10 digits 0) = value
  split
  · exact .pure _
  · exact .fail

theorem takes_double : Takes isLineChar double := by
  have hclass : ∀ c, isDoubleChar c = true → isLineChar c = true := fun c hc =>
    isLineChar_of_isSolid (isSolid_of_isDoubleChar hc)
  refine (Takes.takeSome hclass).bind fun chars => ?_
  cases Double.read? chars with
  | some x => exact .pure _
  | none => exact .fail

theorem takes_literal (mnemonic : String) : Takes isLineChar (literal mnemonic) := by
  unfold literal
  split
  · exact takes_integer.bind fun _ => .pure _
  · split
    · exact takes_double.bind fun _ => .pure _
    · exact .pure _

/-- **The characters of a line.** -/
theorem takes_line (offset : Nat) : Takes isLineChar (line offset) := by
  have hresult : Takes isLineChar resultName :=
    takes_valueName.bind fun _ => takes_blank.bind fun _ => (takes_mark rfl).bind fun _ =>
      takes_blank.bind fun _ => .pure _
  have htype : Takes isLineChar lineType :=
    takes_blank.bind fun _ => (takes_mark rfl).bind fun _ => takes_blank.bind fun _ =>
      takes_identifier
  have hfront : Takes isLineChar (lineFront offset) :=
    hresult.optional.bind fun _ => takes_mnemonic.bind fun mnemonic => takes_blank.bind fun _ =>
      (takes_literal mnemonic).bind fun _ => takes_blank.bind fun _ =>
        (takes_operand.separated rfl).optional.bind fun _ => .pure _
  have hback : Takes isLineChar lineBack :=
    htype.optional.bind fun _ => takes_blank.bind fun _ => .pure _
  rw [line_eq]
  exact hfront.bind fun _ => hback.bind fun _ => .pure _

/-! ## Accepted lines -/

theorem endsLine_eq_true {rest : List Char} :
    endsLine rest false = true ↔ rest = [] ∨ rest = ['\r'] := by
  unfold endsLine
  split
  · simp
  · simp
  · next hnil hreturn => exact ⟨nofun, fun h => (h.elim hnil hreturn).elim⟩

/-- The text is scanned as the line `found`, with nothing but a carriage return behind it. -/
def Accepts (offset : Nat) (text : List Char) (found : Line) : Prop :=
  ∃ rest, Scanner.line offset text = .ok (found, rest) ∧ endsLine rest false = true

theorem Accepts.unique {text : List Char} {found' : Line} (h : Accepts offset text found)
    (h' : Accepts offset text found') : found' = found := by
  obtain ⟨rest, hscan, -⟩ := h
  obtain ⟨rest', hscan', -⟩ := h'
  rw [hscan] at hscan'
  cases hscan'
  rfl

theorem Accepts.mem {text : List Char} (h : Accepts offset text found) :
    ∀ c ∈ text, isLineChar c = true ∨ c = '\r' := by
  obtain ⟨rest, hscan, hends⟩ := h
  obtain ⟨taken, rfl, htaken⟩ := takes_line offset _ _ _ hscan
  intro c hc
  rcases List.mem_append.1 hc with hc | hc
  · exact .inl (htaken c hc)
  · rcases endsLine_eq_true.1 hends with rfl | rfl
    · cases hc
    · exact .inr (List.mem_singleton.1 hc)

/-- **A carriage return is at the end of an accepted line** or nowhere. -/
theorem Accepts.notMem {word more : List Char} (h : Accepts offset (word ++ more) found)
    (hlast : more = [] → word.getLast? ≠ some '\r') : '\r' ∉ word := by
  obtain ⟨rest, hscan, hends⟩ := h
  obtain ⟨taken, htext, htaken⟩ := takes_line offset _ _ _ hscan
  have hnot : '\r' ∉ taken := fun hmem => absurd (htaken _ hmem) (by decide)
  rcases endsLine_eq_true.1 hends with rfl | rfl
  · rw [List.append_nil] at htext
    exact fun hmem => hnot (htext ▸ List.mem_append_left _ hmem)
  · rcases List.eq_nil_or_concat more with rfl | ⟨front, d, rfl⟩
    · rw [List.append_nil] at htext
      exact absurd (by rw [htext, List.getLast?_append]; rfl) (hlast rfl)
    · rw [List.concat_eq_append, ← List.append_assoc] at htext
      obtain ⟨rfl, -⟩ := List.append_inj' htext rfl
      exact fun hmem => hnot (List.mem_append_left _ hmem)

/-- An accepted line begins with the name of its result or of its operation. -/
theorem Accepts.head {text : List Char} (h : Accepts offset text found) :
    ∃ c tail, text = c :: tail ∧ (isNameStart c = true ∨ c = '%') := by
  obtain ⟨rest, hscan, -⟩ := h
  obtain ⟨result?, middle, hresult, hscan⟩ := Scanner.bind_eq_ok.1 hscan
  obtain ⟨mnemonic, _, hmnemonic, -⟩ := Scanner.bind_eq_ok.1 hscan
  by_cases hhead : text.head? = some '%'
  · obtain ⟨tail, rfl⟩ := List.head?_eq_some_iff.1 hhead
    exact ⟨'%', tail, rfl, .inr rfl⟩
  · have hnone : valueName text = .error text := bind_error (token_error hhead)
    rw [optional_error (bind_error hnone)] at hresult
    cases hresult
    obtain ⟨name, _, hname, -⟩ := Scanner.bind_eq_ok.1 hmnemonic
    cases text with
    | nil => cases hname
    | cons c tail =>
      refine ⟨c, tail, rfl, .inl ?_⟩
      unfold identifier at hname
      split at hname
      · next heq =>
        cases heq
        split at hname
        · next hstart => exact hstart
        · cases hname
      · next heq => cases heq

theorem Accepts.head_ne {text : List Char} (h : Accepts offset text found) :
    ∃ c tail, text = c :: tail ∧ isSpace c = false ∧ c ≠ '\x7d' := by
  obtain ⟨c, tail, rfl, hc⟩ := h.head
  refine ⟨c, tail, rfl, ?_⟩
  rcases hc with hc | rfl
  · exact ⟨not_isSpace_of_isNameChar (isNameChar_of_isNameStart hc), by rintro rfl; cases hc⟩
  · exact ⟨rfl, by decide⟩

/-! ## Lines that are changed -/

/-- Whatever the first line is accepted as, the second one is accepted as too, in other words. -/
structure RewordsLine (names : String → String → Prop) (line line' : List Char) : Prop where
  space : line.dropWhile isSpace = [] → line'.dropWhile isSpace = []
  brace : ∀ rest, line.dropWhile isSpace = '\x7d' :: rest → rest.dropWhile isSpace = [] →
    ∃ rest', line'.dropWhile isSpace = '\x7d' :: rest' ∧ rest'.dropWhile isSpace = []
  operation : ∀ offset found, Accepts offset (line.dropWhile isSpace) found →
    ∀ offset', ∃ found', Accepts offset' (line'.dropWhile isSpace) found' ∧
      found.Reworded names found'

/-- Whatever the first lines are scanned as, the second ones are scanned as too, in other words. -/
structure RewordsLines (names : String → String → Prop) (lines lines' : List (List Char)) : Prop where
  space : (∀ line ∈ lines, line.dropWhile isSpace = []) →
    ∀ line ∈ lines', line.dropWhile isSpace = []
  scan : ∀ offset found, scanLines offset lines = .ok found →
    ∀ offset', ∃ found', scanLines offset' lines' = .ok found' ∧
      List.Forall₂ (Line.Reworded names) found found'

variable {line line' : List Char} {lines lines' : List (List Char)}

theorem isEmpty_of_scanLines {found : List Line} (h : scanLines offset lines = .ok found) :
    lines.isEmpty = false := by
  cases lines with
  | nil => cases h
  | cons => rfl

theorem rewordsLines_nil (names : String → String → Prop) : RewordsLines names [] [] where
  space := id
  scan _ _ h := by cases h

/-- **Lines are changed one by one.** -/
theorem RewordsLines.cons (hline : RewordsLine names line line')
    (hlines : RewordsLines names lines lines') :
    RewordsLines names (line :: lines) (line' :: lines') where
  space h := by
    obtain ⟨hfirst, hmore⟩ := List.forall_mem_cons.1 h
    exact List.forall_mem_cons.2 ⟨hline.space hfirst, hlines.space hmore⟩
  scan offset found h offset' := by
    cases scanLines_eq_ok.1 h with
    | space hdrop hmore =>
      obtain ⟨found', hmore', hfound⟩ := hlines.scan _ _ hmore _
      exact ⟨found', scanLines_eq_ok.2 (.space (hline.space hdrop) hmore'), hfound⟩
    | brace hdrop hmore =>
      obtain ⟨hrest, hmore⟩ := List.forall_mem_cons.1 hmore
      obtain ⟨rest', hdrop', hrest'⟩ := hline.brace _ hdrop hrest
      exact ⟨[], scanLines_eq_ok.2 (.brace hdrop'
        (List.forall_mem_cons.2 ⟨hrest', hlines.space hmore⟩)), .nil⟩
    | operation hdrop hbrace hscan hends hmore =>
      rw [isEmpty_of_scanLines hmore] at hends
      rw [← hdrop] at hscan
      obtain ⟨first', haccepts, hfirst⟩ := hline.operation _ _ ⟨_, hscan, hends⟩
        (offset' + (line'.length - (line'.dropWhile isSpace).length))
      obtain ⟨found', hmore', hfound⟩ := hlines.scan _ _ hmore _
      obtain ⟨c, tail, hdrop', -, hbrace'⟩ := haccepts.head_ne
      obtain ⟨rest', hscan', hends'⟩ := haccepts
      rw [hdrop'] at hscan'
      rw [← isEmpty_of_scanLines hmore'] at hends'
      exact ⟨first' :: found', scanLines_eq_ok.2 (.operation hdrop' hbrace' hscan' hends' hmore'),
        .cons hfirst hfound⟩

theorem RewordsLines.of_forall₂ (h : List.Forall₂ (RewordsLine names) lines lines') :
    RewordsLines names lines lines' := by
  induction h with
  | nil => exact rewordsLines_nil names
  | cons hline _ ih => exact ih.cons hline

/-! ## Names, and blanks around marks -/

/-- Texts that are the same but for the names of values and the blanks around marks. -/
def Variation.everywhere (names : String → String → Prop) : Variation :=
  whole names fun _ => True

namespace Variation.Related

variable {common : Char → Prop} {t t' : List Char}

theorem eq_nil_of_whole (h : (whole names common).Related [] t') : t' = [] := by
  generalize ht : [] = t at h
  cases h with
  | ends h => exact h.2.trans ht
  | char => cases ht
  | value => cases ht
  | mark => simp at ht

/-- Other characters than marks, blanks and the `%` of values stand in both texts. -/
theorem exists_cons_of_whole {c : Char} (hmark : isMark c = false) (hblank : isBlank c = false)
    (hpercent : c ≠ '%') (h : (whole names common).Related (c :: t) t') :
    ∃ rest, t' = c :: rest ∧ (whole names common).Related t rest := by
  generalize htext : c :: t = text at h
  cases h with
  | ends h =>
    obtain ⟨rfl, -⟩ := h
    cases htext
  | char hcommon _ _ more =>
    cases htext
    exact ⟨_, rfl, more⟩
  | value => exact absurd (List.cons.inj htext).1 hpercent
  | mark hd ha =>
    have hne : ∀ {d : Char}, isMark d = true → d ≠ c := by
      rintro _ hd rfl
      rw [hd] at hmark
      cases hmark
    exact absurd (congrArg List.head? htext).symm (head?_blanks_ne ha (hne hd) hblank _)

/-- Names and marks apart, the texts are the same. -/
theorem prepend_plain {front : List Char} (hfront : (front.all fun c => !isMark c && c != '%') = true)
    (h : (everywhere names).Related t t') :
    (everywhere names).Related (front ++ t) (front ++ t') := by
  induction front with
  | nil => exact h
  | cons c front ih =>
    obtain ⟨hc, hfront⟩ := Bool.and_eq_true_iff.1 hfront
    obtain ⟨hmark, hpercent⟩ := Bool.and_eq_true_iff.1 hc
    exact .char trivial (by simpa using hmark) (by simpa using hpercent) (ih hfront)

theorem refl (hnames : ∀ name, names name name) (text : List Char) :
    (everywhere names).Related text text := by
  have h : (everywhere names).Related (text ++ []) (text ++ []) :=
    .prepend hnames (fun _ _ => trivial) (stopsAt_nil _) (stopsAt_nil _) (.ends ⟨rfl, rfl⟩)
  rwa [List.append_nil] at h

end Variation.Related

/-- An operation is accepted in other names, and with other blanks around its marks. -/
theorem Accepts.of_related {text text' : List Char} (haccepts : Accepts offset text found)
    (h : (everywhere names).Related text text') (offset' : Nat) :
    ∃ found', Accepts offset' text' found' ∧ found.Reworded names found' := by
  obtain ⟨rest, hscan, hends⟩ := haccepts
  obtain ⟨found', rest', hscan', ⟨hfront, hty⟩, htight⟩ := (h.line (sound_whole _ _)
    (fun _ _ => keeps_whole _ _ _) offset offset').exists_ok hscan
  refine ⟨found', ⟨rest', hscan', endsLine_eq_true.2 ?_⟩, ⟨hfront, .inl hty⟩⟩
  rcases endsLine_eq_true.1 hends with rfl | rfl
  · exact .inl htight.related.eq_nil_of_whole
  · obtain ⟨rest, rfl, hrest⟩ := htight.related.exists_cons_of_whole rfl rfl (by decide)
    exact .inr (congrArg _ hrest.eq_nil_of_whole)

theorem RewordsLine.of_related (h : (everywhere names).Related line line') :
    RewordsLine names line line' := by
  have hdrop : (everywhere names).Related (line.dropWhile isSpace) (line'.dropWhile isSpace) :=
    h.space (soundSpace_whole _ _)
  refine ⟨fun hline => ?_, fun rest hline hrest => ?_, fun _ _ h => h.of_related hdrop⟩
  · rw [hline] at hdrop
    exact hdrop.eq_nil_of_whole
  · rw [hline] at hdrop
    obtain ⟨rest', hline', hmore⟩ := hdrop.exists_cons_of_whole rfl rfl (by decide)
    have hmore' := hmore.space (soundSpace_whole _ _)
    rw [LooseSpace, hrest] at hmore'
    exact ⟨rest', hline', hmore'.eq_nil_of_whole⟩

theorem RewordsLine.refl (hnames : ∀ name, names name name) (line : List Char) :
    RewordsLine names line line :=
  .of_related (.refl hnames line)

/-- Lines in front may stay as they are. -/
theorem RewordsLines.prepend (hnames : ∀ name, names name name) (front : List (List Char))
    (h : RewordsLines names lines lines') :
    RewordsLines names (front ++ lines) (front ++ lines') := by
  induction front with
  | nil => exact h
  | cons line front ih => exact ih.cons (.refl hnames line)

theorem RewordsLines.refl (hnames : ∀ name, names name name) (lines : List (List Char)) :
    RewordsLines names lines lines := by
  have h := (rewordsLines_nil names).prepend hnames lines
  rwa [List.append_nil] at h

/-- What stands in front of a line feed is in front of the first line. -/
theorem splitLines_prepend {front t first : List Char} {more : List (List Char)}
    (hfront : '\n' ∉ front) (h : splitLines t = first :: more) :
    splitLines (front ++ t) = (front ++ first) :: more := by
  induction front with
  | nil => exact h
  | cons c front ih =>
    obtain ⟨hc, hfront⟩ := not_or.1 (mt List.mem_cons.2 hfront)
    rw [List.cons_append, splitLines_cons, if_neg (Ne.symm hc), ih hfront]
    rfl

theorem StopsAt.first {inClass : Char → Bool} {t first : List Char} {more : List (List Char)}
    (ht : StopsAt inClass t) (h : splitLines t = first :: more) : StopsAt inClass first := by
  rcases splitLines_cases t with ⟨-, heq⟩ | ⟨line, rest, rfl, -, heq⟩
  · rw [h] at heq
    cases heq
    exact ht
  · rw [h] at heq
    cases heq
    intro c hc
    refine ht c ?_
    rw [List.head?_append, hc]
    rfl

/-- Lines are related if what is in front of the first line feeds is related. -/
theorem forall₂_splitLines {related : List Char → List Char → Prop} {front front' t t' : List Char}
    (hfront : '\n' ∉ front) (hfront' : '\n' ∉ front')
    (hlines : List.Forall₂ related (splitLines t) (splitLines t'))
    (hfirst : ∀ first first', related first first' →
      (∀ inClass, StopsAt inClass t → StopsAt inClass first) →
      (∀ inClass, StopsAt inClass t' → StopsAt inClass first') →
      related (front ++ first) (front' ++ first')) :
    List.Forall₂ related (splitLines (front ++ t)) (splitLines (front' ++ t')) := by
  obtain ⟨first, more, ht⟩ := exists_splitLines t
  obtain ⟨first', more', ht'⟩ := exists_splitLines t'
  rw [ht, ht'] at hlines
  obtain ⟨hhead, htail⟩ := List.forall₂_cons.1 hlines
  rw [splitLines_prepend hfront ht, splitLines_prepend hfront' ht']
  exact .cons (hfirst first first' hhead (fun _ h => h.first ht) fun _ h => h.first ht') htail

theorem notMem_feed_value {name : List Char} (h : name = [] ∨ isValueName name = true) :
    '\n' ∉ '%' :: name := by
  rcases h with rfl | h
  · decide
  · exact notMem_newline_value h

theorem notMem_feed_mark {c : Char} (hc : isMark c = true) {a b : List Char} (ha : IsBlanks a)
    (hb : IsBlanks b) : '\n' ∉ a ++ c :: b := by
  intro hmem
  rcases List.mem_append.1 hmem with hmem | hmem
  · exact absurd (ha _ hmem) (by decide)
  · rcases List.mem_cons.1 hmem with rfl | hmem
    · cases hc
    · exact absurd (hb _ hmem) (by decide)

/-- **Related texts have related lines.** -/
theorem Variation.Related.splitLines {t t' : List Char} (h : (everywhere names).Related t t') :
    List.Forall₂ (everywhere names).Related (splitLines t) (splitLines t') := by
  induction h with
  | ends h =>
    obtain ⟨rfl, rfl⟩ := h
    exact .cons (.ends ⟨rfl, rfl⟩) .nil
  | @char c t t' hcommon hmark hpercent _ ih =>
    by_cases hc : c = '\n'
    · rw [splitLines_cons, splitLines_cons, if_pos hc, if_pos hc]
      exact .cons (.ends ⟨rfl, rfl⟩) ih
    · have hfeed : '\n' ∉ [c] := fun hmem => hc (List.mem_singleton.1 hmem).symm
      exact forall₂_splitLines hfeed hfeed ih fun _ _ h _ _ => .char hcommon hmark hpercent h
  | @value name name' t t' hname hstop hstop' _ ih =>
    have hfeed := notMem_feed_value (hname.imp And.left And.left)
    have hfeed' := notMem_feed_value (hname.imp And.right fun h => h.2.1)
    exact forall₂_splitLines hfeed hfeed' ih fun _ _ h hfirst hfirst' =>
      .value hname (hfirst _ hstop) (hfirst' _ hstop') h
  | @mark c a b a' b' t t' hc ha hb ha' hb' _ ih =>
    have hfeed := notMem_feed_mark hc ha hb
    have hfeed' := notMem_feed_mark hc ha' hb'
    rw [← List.cons_append, ← List.append_assoc, ← List.cons_append, ← List.append_assoc]
    refine forall₂_splitLines hfeed hfeed' ih fun first first' h _ _ => ?_
    rw [List.append_assoc, List.append_assoc]
    exact .mark hc ha hb ha' hb' h

theorem RewordsLines.of_related {t t' : List Char} (h : (everywhere names).Related t t') :
    RewordsLines names (splitLines t) (splitLines t') :=
  .of_forall₂ (h.splitLines.imp fun _ _ => .of_related)

/-! ## Ends of lines -/

/-- Blanks, and a carriage return behind them or none. -/
def IsLineEnd (text : List Char) : Prop :=
  ∃ blanks back, text = blanks ++ back ∧ IsBlanks blanks ∧ (back = [] ∨ back = ['\r'])

theorem IsBlanks.isLineEnd {text : List Char} (h : IsBlanks text) : IsLineEnd text :=
  ⟨text, [], (List.append_nil text).symm, h, .inl rfl⟩

namespace IsLineEnd

variable {text : List Char}

theorem isSpace (h : IsLineEnd text) : ∀ c ∈ text, isSpace c = true := by
  obtain ⟨blanks, back, rfl, hblanks, hback⟩ := h
  intro c hc
  rcases List.mem_append.1 hc with hc | hc
  · exact isSpace_of_blank (hblanks c hc)
  · rcases hback with rfl | rfl
    · cases hc
    · rw [List.mem_singleton.1 hc]
      rfl

theorem notMem_feed (h : IsLineEnd text) : '\n' ∉ text := by
  obtain ⟨blanks, back, rfl, hblanks, hback⟩ := h
  intro hmem
  rcases List.mem_append.1 hmem with hmem | hmem
  · exact absurd (hblanks _ hmem) (by decide)
  · rcases hback with rfl | rfl
    · cases hmem
    · exact absurd (List.mem_singleton.1 hmem) (by decide)

theorem head?_ne (h : IsLineEnd text) {c : Char} (hc : Scanner.isSpace c = false) :
    text.head? ≠ some c := by
  intro hhead
  rw [h.isSpace c (List.mem_of_head? hhead)] at hc
  cases hc

theorem stopsAt (h : IsLineEnd text) : StopsAt isSolid text := by
  intro c hc
  refine Bool.eq_false_iff.2 fun hsolid => ?_
  have hall : ∀ c : Char, Scanner.isSpace c = true → isSolid c = false := by
    intro c hc
    simp only [Scanner.isSpace, Bool.or_eq_true, decide_eq_true_eq] at hc
    rcases hc with (((rfl | rfl) | rfl) | rfl) | rfl <;> rfl
  rw [hall c (h.isSpace c (List.mem_of_head? hc))] at hsolid
  cases hsolid

/-- Behind its blanks is the carriage return, or nothing. -/
theorem dropWhile (h : IsLineEnd text) :
    text.dropWhile isBlank = [] ∨ text.dropWhile isBlank = ['\r'] := by
  obtain ⟨blanks, back, rfl, hblanks, hback⟩ := h
  rw [hblanks.dropWhile]
  exact hback.imp (by rintro rfl; rfl) (by rintro rfl; rfl)

theorem isLineEnd_dropWhile (h : IsLineEnd text) : IsLineEnd (text.dropWhile isBlank) :=
  ⟨[], _, rfl, isBlanks_nil, h.dropWhile⟩

end IsLineEnd

namespace Variation

/-- Texts that are the same up to the ends of their lines. -/
def lineEnds : Variation where
  names := Eq
  common c := c ≠ '\r'
  ends t t' := IsLineEnd t ∧ IsLineEnd t'

theorem sound_lineEnds : lineEnds.Sound where
  solid _ _ h := ⟨h.1.stopsAt, h.2.stopsAt⟩
  value _ _ h := ⟨h.1.head?_ne rfl, h.2.head?_ne rfl⟩
  blank _ _ h := .ends ⟨h.1.isLineEnd_dropWhile, h.2.isLineEnd_dropWhile⟩

theorem keeps_lineEnds {c : Char} (hc : isMark c = true) : lineEnds.Keeps c := fun _ _ h =>
  ⟨h.1.head?_ne (not_isSpace_of_isMark hc), h.2.head?_ne (not_isSpace_of_isMark hc)⟩

/-- Where carriage returns are not in common, a text with nothing else left is at its end. -/
theorem Related.ends_of_endsLine {v : Variation} (hreturn : ¬ v.common '\r') {rest t' : List Char}
    (h : v.Related rest t') (hends : endsLine rest false = true) : v.ends rest t' := by
  cases h with
  | ends h => exact h
  | char hcommon =>
    rcases endsLine_eq_true.1 hends with heq | heq
    · cases heq
    · cases heq
      exact absurd hcommon hreturn
  | value =>
    rcases endsLine_eq_true.1 hends with heq | heq <;> cases heq
  | mark hc ha =>
    have hne : ∀ {c : Char}, isMark c = true → c ≠ '\r' := by
      rintro _ hc rfl
      cases hc
    rcases endsLine_eq_true.1 hends with heq | heq
    · simp at heq
    · exact absurd (congrArg List.head? heq) (head?_blanks_ne ha (hne hc) rfl _)

end Variation

theorem dropWhile_append_ne_nil {word : List Char} (h : word.dropWhile isSpace ≠ [])
    (more : List Char) :
    (word ++ more).dropWhile isSpace = word.dropWhile isSpace ++ more := by
  rw [List.dropWhile_append, if_neg (by rwa [List.isEmpty_iff])]

/-- White space may stand for white space. -/
theorem RewordsLine.of_space (hline : line.dropWhile isSpace = [])
    (hline' : line'.dropWhile isSpace = []) : RewordsLine names line line' := by
  refine ⟨fun _ => hline', fun rest hrest => ?_, fun offset found h => ?_⟩
  · rw [hline] at hrest
    cases hrest
  · obtain ⟨c, tail, htext, -⟩ := h.head
    rw [hline] at htext
    cases htext

/-- An operation may stand for an operation. -/
theorem RewordsLine.of_accepts (haccepts : Accepts offset (line.dropWhile isSpace) found)
    (h : ∀ offset found, Accepts offset (line.dropWhile isSpace) found →
      ∀ offset', ∃ found', Accepts offset' (line'.dropWhile isSpace) found' ∧
        found.Reworded names found') : RewordsLine names line line' := by
  obtain ⟨c, tail, htext, -, hbrace⟩ := haccepts.head_ne
  refine ⟨fun hline => ?_, fun rest hline => ?_, h⟩
  · rw [htext] at hline
    cases hline
  · rw [htext] at hline
    exact absurd (List.cons.inj hline).1 hbrace

/-- An operation is accepted with another end of its line. -/
theorem Accepts.of_lineEnd {text t t' : List Char} (h : Accepts offset (text ++ t) found)
    (hlast : text.getLast? ≠ some '\r') (ht : IsLineEnd t) (ht' : IsLineEnd t') (offset' : Nat) :
    ∃ found', Accepts offset' (text ++ t') found' ∧ found.Reworded Eq found' := by
  have hreturn := h.notMem fun _ => hlast
  have hrelated : lineEnds.Related (text ++ t) (text ++ t') :=
    .prepend (fun _ => rfl) (fun c hc heq => hreturn (heq ▸ hc))
      (ht.stopsAt.mono fun _ => isSolid_of_isNameChar)
      (ht'.stopsAt.mono fun _ => isSolid_of_isNameChar) (.ends ⟨ht, ht'⟩)
  obtain ⟨rest, hscan, hends⟩ := h
  obtain ⟨found', rest', hscan', ⟨hfront, hty⟩, htight⟩ := (hrelated.line sound_lineEnds
    (fun _ => keeps_lineEnds) offset offset').exists_ok hscan
  have hcommon : ¬ lineEnds.common '\r' := fun h => h rfl
  have hrest' := (htight.related.ends_of_endsLine hcommon hends).2.dropWhile
  rw [htight.stop'.dropWhile_eq] at hrest'
  exact ⟨found', ⟨rest', hscan', endsLine_eq_true.2 hrest'⟩, ⟨hfront, .inl hty⟩⟩

/-- **The end of a line** may have other blanks, and a carriage return or none. -/
theorem rewordsLine_lineEnd {word t t' : List Char} (hword : word.getLast? ≠ some '\r')
    (ht : IsLineEnd t) (ht' : IsLineEnd t') : RewordsLine Eq (word ++ t) (word ++ t') := by
  have hspace : ∀ {word t : List Char}, IsLineEnd t → word.dropWhile isSpace = [] →
      (word ++ t).dropWhile isSpace = [] := by
    intro word t ht hword
    rw [List.dropWhile_append, hword, List.isEmpty_nil, if_pos rfl]
    exact List.dropWhile_eq_nil_iff.2 ht.isSpace
  by_cases hnil : word.dropWhile isSpace = []
  · exact .of_space (hspace ht hnil) (hspace ht' hnil)
  · have hdrop := dropWhile_append_ne_nil hnil
    have hlast : (word.dropWhile isSpace).getLast? ≠ some '\r' := by
      obtain ⟨front, hfront⟩ := List.dropWhile_suffix (l := word) isSpace
      rwa [← hfront, List.getLast?_append_of_ne_nil _ hnil] at hword
    generalize word.dropWhile isSpace = text at hnil hdrop hlast
    refine ⟨fun hline => ?_, fun rest hline hrest => ?_, fun offset found haccepts => ?_⟩
    · rw [hdrop] at hline
      exact absurd (List.append_eq_nil_iff.1 hline).1 hnil
    · rw [hdrop] at hline ⊢
      obtain ⟨tail, rfl, rfl⟩ := (List.append_eq_cons_iff.1 hline).resolve_left fun h => hnil h.1
      refine ⟨tail ++ t', rfl, hspace ht' ?_⟩
      exact List.dropWhile_eq_nil_iff.2 fun c hc =>
        List.dropWhile_eq_nil_iff.1 hrest c (List.mem_append_left _ hc)
    · rw [hdrop] at haccepts ⊢
      exact haccepts.of_lineEnd hlast ht ht'

/-! ## Annotations -/

namespace Variation

/-- Texts of which the first one has an annotation that the second one leaves out. -/
def unannotated (label : List Char) : Variation where
  names := Eq
  common c := c ≠ '\r'
  ends t t' := (∃ a, IsBlanks a ∧ t = a ++ ':' :: label) ∧ IsLineEnd t'

variable {label t t' : List Char}

theorem sound_unannotated (label : List Char) : (unannotated label).Sound where
  solid := by
    rintro _ t' ⟨⟨a, ha, rfl⟩, ht'⟩
    exact ⟨stopsAt_mark (fun _ h => h) ha rfl _, ht'.stopsAt⟩
  value := by
    rintro _ t' ⟨⟨a, ha, rfl⟩, ht'⟩
    exact ⟨head?_blanks_ne ha (by decide) rfl _, ht'.head?_ne rfl⟩
  blank := by
    rintro _ t' ⟨⟨a, ha, rfl⟩, ht'⟩
    rw [ha.dropWhile, List.dropWhile_cons_of_neg (by decide)]
    exact .ends ⟨⟨[], isBlanks_nil, rfl⟩, ht'.isLineEnd_dropWhile⟩

theorem keeps_unannotated {c : Char} (hc : isMark c = true) (hcolon : ':' ≠ c) :
    (unannotated label).Keeps c := by
  rintro _ t' ⟨⟨a, ha, rfl⟩, ht'⟩
  exact ⟨head?_blanks_ne ha hcolon (not_isBlank_of_isMark hc) _,
    ht'.head?_ne (not_isSpace_of_isMark hc)⟩

theorem Related.colon_mem (h : (unannotated label).Related t t') : ':' ∈ t := by
  induction h with
  | ends h =>
    obtain ⟨⟨a, -, rfl⟩, -⟩ := h
    exact List.mem_append_right _ List.mem_cons_self
  | char _ _ _ _ ih => exact List.mem_cons_of_mem _ ih
  | value _ _ _ _ ih => exact List.mem_cons_of_mem _ (List.mem_append_right _ ih)
  | mark _ _ _ _ _ _ ih =>
    exact List.mem_append_right _ (List.mem_cons_of_mem _ (List.mem_append_right _ ih))

/-- What is behind a line is the text itself, or what is behind its type. -/
theorem lineBack_cases {text rest : List Char} {ty? : Option String} (hstop : StopsAt isBlank text)
    (h : lineBack text = .ok (ty?, rest)) :
    rest = text ∨ ∃ more name behind, text = ':' :: more ∧
      identifier (more.dropWhile isBlank) = .ok (name, behind) ∧ rest = behind.dropWhile isBlank := by
  obtain ⟨found?, middle, hfound, hback⟩ := Scanner.bind_eq_ok.1 h
  obtain ⟨_, _, hblank, hpure⟩ := Scanner.bind_eq_ok.1 hback
  cases hblank
  cases hpure
  have hnone : ∀ e, lineType text = .error e → middle.dropWhile isBlank = text := by
    intro e herror
    rw [optional_error herror] at hfound
    cases hfound
    exact hstop.dropWhile_eq
  by_cases hhead : text.head? = some ':'
  · obtain ⟨more, rfl⟩ := List.head?_eq_some_iff.1 hhead
    have htype : lineType (':' :: more) = identifier (more.dropWhile isBlank) := by
      refine (bind_ok (blank_eq _)).trans ?_
      rw [hstop.dropWhile_eq]
      exact (bind_ok (token_cons ':' _)).trans (bind_ok (blank_eq _))
    cases hname : identifier (more.dropWhile isBlank) with
    | error e => exact .inl (hnone e (htype.trans hname))
    | ok found =>
      obtain ⟨name, behind⟩ := found
      rw [optional_ok (htype.trans hname)] at hfound
      cases hfound
      exact .inr ⟨more, name, _, rfl, hname, rfl⟩
  · refine .inl (hnone text ((bind_ok (blank_eq _)).trans ?_))
    rw [hstop.dropWhile_eq]
    exact bind_error (token_error hhead)

/-- The type of an accepted line is the annotation, so nothing else is left of the line
without it. -/
theorem Tight.isLineEnd_of_lineBack (h : (unannotated label).Tight t t') {ty? : Option String}
    {rest : List Char} (hback : lineBack t = .ok (ty?, rest)) (hends : endsLine rest false = true) :
    IsLineEnd t' := by
  have hnot : ':' ∉ rest := by rcases endsLine_eq_true.1 hends with rfl | rfl <;> decide
  obtain ⟨hrelated, hstop, -⟩ := h
  rcases lineBack_cases hstop hback with rfl | ⟨more, name, behind, rfl, hname, rfl⟩
  · exact absurd hrelated.colon_mem hnot
  · have hbehind : ':' ∉ behind := by
      intro hmem
      rw [← List.takeWhile_append_dropWhile (p := isBlank) (l := behind)] at hmem
      rcases List.mem_append.1 hmem with hmem | hmem
      · exact absurd (List.all_eq_true.1 List.all_takeWhile _ hmem) (by decide)
      · exact hnot hmem
    generalize htext : ':' :: more = text at hrelated
    cases hrelated with
    | ends h => exact h.2
    | char _ hmark =>
      cases htext
      cases hmark
    | value => cases htext
    | @mark c a b a' b' t t' hc ha hb ha' hb' hmore =>
      -- the annotation is behind this mark, and so behind the type that is found here
      exfalso
      cases a with
      | nil =>
        cases htext
        rw [hb.dropWhile] at hname
        have hdrop : (unannotated label).Related (t.dropWhile isBlank) (t'.dropWhile isBlank) :=
          hmore.blank (sound_unannotated _)
        obtain ⟨_, _, -, -, hrest⟩ := (hdrop.identifier (sound_unannotated _)).exists_ok hname
        exact hbehind hrest.colon_mem
      | cons d a =>
        cases htext
        exact absurd (ha ':' List.mem_cons_self) (by decide)

end Variation

/-- Nothing is at the end of a line. -/
theorem lineBack_lineEnd {text : List Char} (h : IsLineEnd text) (hstop : StopsAt isBlank text) :
    lineBack text = .ok (none, text) ∧ endsLine text false = true := by
  have hdrop := h.dropWhile
  rw [hstop.dropWhile_eq] at hdrop
  rcases hdrop with rfl | rfl <;> exact ⟨rfl, rfl⟩

/-- Only a constant has an integer. -/
theorem lineFront_literal {text rest : List Char} (h : lineFront offset text = .ok (found, rest))
    (hmnemonic : found.mnemonic ≠ "const") (value : Int) : found.literal? ≠ some (.int value) := by
  unfold lineFront at h
  obtain ⟨result?, _, -, h⟩ := Scanner.bind_eq_ok.1 h
  obtain ⟨mnemonic, _, -, h⟩ := Scanner.bind_eq_ok.1 h
  obtain ⟨_, middle, -, h⟩ := Scanner.bind_eq_ok.1 h
  obtain ⟨literal?, _, hliteral, h⟩ := Scanner.bind_eq_ok.1 h
  obtain ⟨_, _, -, h⟩ := Scanner.bind_eq_ok.1 h
  obtain ⟨operands, _, -, hpure⟩ := Scanner.bind_eq_ok.1 h
  cases hpure
  rw [literal, if_neg hmnemonic] at hliteral
  rintro (rfl : literal? = _)
  split at hliteral
  · obtain ⟨x, _, -, hpure⟩ := Scanner.bind_eq_ok.1 hliteral
    cases hpure
  · cases hliteral

/-- An operation that is not a constant is accepted without its annotation. -/
theorem Accepts.of_unannotated {word label t : List Char}
    (h : Accepts offset (word ++ ':' :: label) found) (hmnemonic : found.mnemonic ≠ "const")
    (ht : IsLineEnd t) (offset' : Nat) :
    ∃ found', Accepts offset' (word ++ t) found' ∧ found.Reworded Eq found' := by
  have hreturn := h.notMem nofun
  have hrelated : (unannotated label).Related (word ++ ':' :: label) (word ++ t) :=
    .prepend (fun _ => rfl) (fun c hc heq => hreturn (heq ▸ hc)) (stopsAt_cons rfl _)
      (ht.stopsAt.mono fun _ => isSolid_of_isNameChar) (.ends ⟨⟨[], isBlanks_nil, rfl⟩, ht⟩)
  obtain ⟨rest, hscan, hends⟩ := h
  rw [line_eq] at hscan
  obtain ⟨front, middle, hfront, hscan⟩ := Scanner.bind_eq_ok.1 hscan
  obtain ⟨ty?, _, hback, hpure⟩ := Scanner.bind_eq_ok.1 hscan
  cases hpure
  obtain ⟨front', middle', hfront', hsame, htight⟩ := (hrelated.lineFront (sound_unannotated _)
    (keeps_unannotated rfl (by decide)) (keeps_unannotated rfl (by decide)) offset
    offset').exists_ok hfront
  obtain ⟨hback', hends'⟩ :=
    lineBack_lineEnd (htight.isLineEnd_of_lineBack hback hends) htight.stop'
  have hliteral : ∀ value, front.literal? ≠ some (.int value) := lineFront_literal hfront hmnemonic
  refine ⟨{ front' with ty? := none }, ⟨middle', ?_, hends'⟩,
    ⟨⟨hsame.result, hsame.mnemonic, hsame.literal, hsame.operands⟩, .inr ⟨rfl, hliteral⟩⟩⟩
  rw [line_eq]
  exact Scanner.bind_eq_ok.2 ⟨_, _, hfront', Scanner.bind_eq_ok.2 ⟨_, _, hback', rfl⟩⟩

/-- A mark does not begin an accepted line. -/
theorem Accepts.exists_cons {word label : List Char} (h : Accepts offset (word ++ ':' :: label) found) :
    ∃ c tail, word = c :: tail ∧ isSpace c = false := by
  cases word with
  | nil =>
    obtain ⟨c, tail, heq, hc⟩ := h.head
    cases heq
    exact absurd hc (by decide)
  | cons c word =>
    obtain ⟨d, tail, heq, hd, -⟩ := h.head_ne
    cases heq
    exact ⟨c, word, rfl, hd⟩

/-- **The annotation of a line** may be left out, unless the line is a constant. -/
theorem rewordsLine_unannotated {gap word label t : List Char}
    (hgap : ∀ c ∈ gap, isSpace c = true) (haccepts : Accepts offset (word ++ ':' :: label) found)
    (hmnemonic : found.mnemonic ≠ "const") (ht : IsLineEnd t) :
    RewordsLine Eq (gap ++ (word ++ ':' :: label)) (gap ++ (word ++ t)) := by
  obtain ⟨c, tail, hword, hspace⟩ := haccepts.exists_cons
  have hdrop : ∀ more, (gap ++ (word ++ more)).dropWhile isSpace = word ++ more := by
    intro more
    rw [List.dropWhile_append_of_pos hgap, hword, List.cons_append,
      List.dropWhile_cons_of_neg (by simp [hspace])]
  have hline : Accepts offset ((gap ++ (word ++ ':' :: label)).dropWhile isSpace) found := by
    rw [hdrop]
    exact haccepts
  refine .of_accepts hline fun offset₁ found₁ haccepts₁ => ?_
  rw [hdrop] at haccepts₁ ⊢
  -- the line is the same operation wherever it stands
  obtain ⟨found', haccepts', hsame⟩ :=
    haccepts.of_related (.refl (fun _ => rfl : ∀ name : String, name = name) _) offset₁
  rw [haccepts₁.unique haccepts'] at hsame
  exact haccepts₁.of_unannotated (hsame.front.mnemonic ▸ hmnemonic) ht

/-! ## White space in front of lines -/

/-- **In front of a line** there may be other white space, blank lines among it. -/
theorem rewordsLines_space {gap gap' : List Char} (hgap : ∀ c ∈ gap, isSpace c = true)
    (hgap' : ∀ c ∈ gap', isSpace c = true) (back : List Char) :
    RewordsLines Eq (splitLines (gap ++ back)) (splitLines (gap' ++ back)) where
  space h := by
    have hall := isSpace_of_splitLines h
    refine splitLines_of_isSpace fun c hc => ?_
    rcases List.mem_append.1 hc with hc | hc
    · exact hgap' c hc
    · exact hall c (List.mem_append_right _ hc)
  scan offset found h offset' := by
    rw [passes_space hgap back] at h
    obtain ⟨found, hfound, rfl⟩ := map_eq_ok.1 h
    have hrefl := RewordsLines.refl (fun _ => rfl : ∀ name : String, name = name) (splitLines back)
    obtain ⟨found', hfound', hreworded⟩ := hrefl.scan _ _ hfound (offset' + byteLength gap')
    refine ⟨found', ?_, hreworded⟩
    rw [passes_space hgap' back, hfound']
    rfl

end Mba.Listing
