import Mathlib.Data.List.Forall2
import Mba.Proofs.Listing.Rendering

/-!
# Texts that are scanned alike

A scanner looks at a text token by token, and what it finds does not depend on how the text is laid
out. Two texts are *related* if they have the same characters but for the names of values, the
blanks around the marks `=`, `,` and `:`, and what they end in. Every scanner then does the same on
both: it finds the same, up to names, and leaves related rests, or it fails on both.

Results:
* `Related.run`, `Related.head`: related texts begin with the same run of a token.
* `Related.valueName`, `Related.identifier`, `Related.literal`, `separated_alike`: the tokens.
* `Related.lineFront`, `Related.lineBack`, `Related.line`: lines are scanned alike.
* `Related.headerFront`: so are headers, up to the opening brace.
-/

namespace Mba.Listing

open Scanner

/-! ## Characters -/

/-- Marks may have blanks around them. -/
def isMark (c : Char) : Bool :=
  c = '=' || c = ',' || c = ':'

/-- The characters of tokens, other than marks and the `%` of values. -/
def isSolid (c : Char) : Bool :=
  isNameChar c || isDoubleChar c || c = '@' || c = '(' || c = ')'

/-- The characters of which lines are made. -/
def isLineChar (c : Char) : Bool :=
  isSolid c || isMark c || isBlank c || c = '%'

/-- Spaces and tabs. -/
def IsBlanks (text : List Char) : Prop :=
  ∀ c ∈ text, isBlank c = true

theorem isBlanks_nil : IsBlanks [] := nofun

theorem IsBlanks.dropWhile {a : List Char} (ha : IsBlanks a) (rest : List Char) :
    (a ++ rest).dropWhile isBlank = rest.dropWhile isBlank :=
  List.dropWhile_append_of_pos ha

theorem isSpace_of_blank {c : Char} (h : isBlank c = true) : isSpace c = true := by
  simp only [isBlank, Bool.or_eq_true, decide_eq_true_eq] at h
  rcases h with rfl | rfl <;> rfl

theorem IsBlanks.dropWhile_isSpace {a : List Char} (ha : IsBlanks a) (rest : List Char) :
    (a ++ rest).dropWhile isSpace = rest.dropWhile isSpace :=
  List.dropWhile_append_of_pos fun c hc => isSpace_of_blank (ha c hc)

theorem isMark_cases {c : Char} (h : isMark c = true) : c = '=' ∨ c = ',' ∨ c = ':' := by
  simpa [isMark, or_assoc] using h

theorem not_isSolid_of_isMark {c : Char} (h : isMark c = true) : isSolid c = false := by
  rcases isMark_cases h with rfl | rfl | rfl <;> rfl

theorem not_isSolid_of_isBlank {c : Char} (h : isBlank c = true) : isSolid c = false := by
  simp only [isBlank, Bool.or_eq_true, decide_eq_true_eq] at h
  rcases h with rfl | rfl <;> rfl

theorem not_isSpace_of_isMark {c : Char} (h : isMark c = true) : isSpace c = false := by
  rcases isMark_cases h with rfl | rfl | rfl <;> rfl

theorem not_isBlank_of_isMark {c : Char} (h : isMark c = true) : isBlank c = false :=
  isSpace_of_isBlank (not_isSpace_of_isMark h)

theorem isSolid_of_isNameChar {c : Char} (h : isNameChar c = true) : isSolid c = true := by
  simp [isSolid, h]

theorem isSolid_of_isDoubleChar {c : Char} (h : isDoubleChar c = true) : isSolid c = true := by
  simp [isSolid, h]

theorem isSolid_of_isDigit {c : Char} (h : c.isDigit = true) : isSolid c = true :=
  isSolid_of_isNameChar (by simp [isNameChar, Char.isAlphanum, h])

theorem isLineChar_of_isSolid {c : Char} (h : isSolid c = true) : isLineChar c = true := by
  simp [isLineChar, h]

theorem isLineChar_of_isNameChar {c : Char} (h : isNameChar c = true) : isLineChar c = true :=
  isLineChar_of_isSolid (isSolid_of_isNameChar h)

theorem isLineChar_of_isBlank {c : Char} (h : isBlank c = true) : isLineChar c = true := by
  simp [isLineChar, h]

/-- Before a mark stand blanks. -/
theorem head?_mark {a : List Char} (ha : IsBlanks a) {c : Char} (hc : isMark c = true)
    (rest : List Char) :
    ∃ d, (a ++ c :: rest).head? = some d ∧ (isMark d = true ∨ isBlank d = true) := by
  cases a with
  | nil => exact ⟨c, rfl, .inl hc⟩
  | cons b a => exact ⟨b, rfl, .inr (ha b List.mem_cons_self)⟩

/-- Behind blanks, a text begins with a blank or with what is behind them. -/
theorem head?_blanks_ne {a : List Char} (ha : IsBlanks a) {c d : Char} (hcd : c ≠ d)
    (hd : isBlank d = false) (rest : List Char) : (a ++ c :: rest).head? ≠ some d := by
  cases a with
  | nil => exact fun heq => hcd (Option.some.inj heq)
  | cons b a =>
    rintro heq
    obtain rfl : b = d := Option.some.inj heq
    rw [ha b List.mem_cons_self] at hd
    cases hd

/-- Neither blanks nor marks are in a token. -/
theorem stopsAt_mark {inClass : Char → Bool} (hclass : ∀ c, inClass c = true → isSolid c = true)
    {a : List Char} (ha : IsBlanks a) {c : Char} (hc : isMark c = true) (rest : List Char) :
    StopsAt inClass (a ++ c :: rest) := by
  intro e he
  obtain ⟨d, hd, hkind⟩ := head?_mark ha hc rest
  obtain rfl : e = d := Option.some.inj (he.symm.trans hd)
  refine Bool.eq_false_iff.2 fun hin => ?_
  have hsolid := hclass e hin
  rcases hkind with hmark | hblank
  · simp [not_isSolid_of_isMark hmark] at hsolid
  · simp [not_isSolid_of_isBlank hblank] at hsolid

theorem StopsAt.head?_ne {inClass : Char → Bool} {text : List Char} (h : StopsAt inClass text)
    {c : Char} (hc : inClass c = true) : text.head? ≠ some c :=
  fun heq => by simp [h c heq] at hc

theorem StopsAt.mono {inClass inClass' : Char → Bool} {text : List Char} (h : StopsAt inClass text)
    (hclass : ∀ c, inClass' c = true → inClass c = true) : StopsAt inClass' text :=
  fun c hc => Bool.eq_false_iff.2 fun hin => h.head?_ne (hclass c hin) hc

/-! ## Related texts -/

/-- How texts that are scanned alike may differ. -/
structure Variation where
  /-- The names of values that stand for each other. -/
  names : String → String → Prop
  /-- The characters that the texts may have in common. -/
  common : Char → Prop
  /-- What the texts may end in. -/
  ends : List Char → List Char → Prop

namespace Variation

/-- The names behind a `%`: none in either text, or two that stand for each other. -/
def SameName (v : Variation) (name name' : List Char) : Prop :=
  name = [] ∧ name' = [] ∨ isValueName name = true ∧ isValueName name' = true ∧
    v.names (String.ofList name) (String.ofList name')

/-- Texts that are the same up to the variation. -/
inductive Related (v : Variation) : List Char → List Char → Prop
  | ends {t t' : List Char} (h : v.ends t t') : Related v t t'
  | char {c : Char} {t t' : List Char} (hcommon : v.common c) (hmark : isMark c = false)
      (hpercent : c ≠ '%') (more : Related v t t') : Related v (c :: t) (c :: t')
  | value {name name' t t' : List Char} (hname : v.SameName name name')
      (hstop : StopsAt isNameChar t) (hstop' : StopsAt isNameChar t') (more : Related v t t') :
      Related v ('%' :: (name ++ t)) ('%' :: (name' ++ t'))
  | mark {c : Char} {a b a' b' t t' : List Char} (hc : isMark c = true) (ha : IsBlanks a)
      (hb : IsBlanks b) (ha' : IsBlanks a') (hb' : IsBlanks b') (more : Related v t t') :
      Related v (a ++ c :: (b ++ t)) (a' ++ c :: (b' ++ t'))

/-- No token begins where the texts end, and blanks at their ends do not matter. -/
structure Sound (v : Variation) : Prop where
  solid : ∀ t t', v.ends t t' → StopsAt isSolid t ∧ StopsAt isSolid t'
  value : ∀ t t', v.ends t t' → t.head? ≠ some '%' ∧ t'.head? ≠ some '%'
  blank : ∀ t t', v.ends t t' → v.Related (t.dropWhile isBlank) (t'.dropWhile isBlank)

/-- The mark `c` does not begin the ends of the texts. -/
def Keeps (v : Variation) (c : Char) : Prop :=
  ∀ t t', v.ends t t' → t.head? ≠ some c ∧ t'.head? ≠ some c

/-- White space at the ends of the texts does not matter. -/
def SoundSpace (v : Variation) : Prop :=
  ∀ t t', v.ends t t' → v.Related (t.dropWhile isSpace) (t'.dropWhile isSpace)

/-- Texts that come to their ends together. -/
def whole (names : String → String → Prop) (common : Char → Prop) : Variation where
  names := names
  common := common
  ends t t' := t = [] ∧ t' = []

theorem sound_whole (names : String → String → Prop) (common : Char → Prop) :
    (whole names common).Sound where
  solid := by
    rintro _ _ ⟨rfl, rfl⟩
    exact ⟨stopsAt_nil _, stopsAt_nil _⟩
  value := by
    rintro _ _ ⟨rfl, rfl⟩
    exact ⟨nofun, nofun⟩
  blank := by
    rintro _ _ ⟨rfl, rfl⟩
    exact .ends ⟨rfl, rfl⟩

theorem soundSpace_whole (names : String → String → Prop) (common : Char → Prop) :
    (whole names common).SoundSpace := by
  rintro _ _ ⟨rfl, rfl⟩
  exact .ends ⟨rfl, rfl⟩

theorem keeps_whole (names : String → String → Prop) (common : Char → Prop) (c : Char) :
    (whole names common).Keeps c := by
  rintro _ _ ⟨rfl, rfl⟩
  exact ⟨nofun, nofun⟩

/-- Related texts behind their blanks. -/
def Loose (v : Variation) (t t' : List Char) : Prop :=
  v.Related (t.dropWhile isBlank) (t'.dropWhile isBlank)

/-- Related texts that begin with no blanks. -/
structure Tight (v : Variation) (t t' : List Char) : Prop where
  related : v.Related t t'
  stop : StopsAt isBlank t
  stop' : StopsAt isBlank t'

/-- Related texts behind their white space. -/
def LooseSpace (v : Variation) (t t' : List Char) : Prop :=
  v.Related (t.dropWhile isSpace) (t'.dropWhile isSpace)

/-- Related texts that begin with no white space. -/
structure TightSpace (v : Variation) (t t' : List Char) : Prop where
  related : v.Related t t'
  stop : StopsAt isSpace t
  stop' : StopsAt isSpace t'

end Variation

open Variation

/-! ## Scanners abreast -/

/-- Scanners find answers that correspond and leave rests that correspond, or fail both. -/
inductive Scanner.Alike {α β : Type} (rests : List Char → List Char → Prop)
    (answers : α → β → Prop) :
    Except (List Char) (α × List Char) → Except (List Char) (β × List Char) → Prop
  | found {a : α} {b : β} {rest rest' : List Char} (hanswers : answers a b)
      (hrests : rests rest rest') : Alike rests answers (.ok (a, rest)) (.ok (b, rest'))
  | missing (rest rest' : List Char) : Alike rests answers (.error rest) (.error rest')

namespace Scanner.Alike

variable {α β γ δ : Type} {rests rests' : List Char → List Char → Prop} {answers : α → β → Prop}
  {t t' : List Char}

/-- Scanners that come alike to a point go on alike if the scanners behind it do. -/
theorem bind {answers' : γ → δ → Prop} {m : Scanner α} {m' : Scanner β} {next : α → Scanner γ}
    {next' : β → Scanner δ} (h : Alike rests answers (m t) (m' t'))
    (hnext : ∀ a b r r', answers a b → rests r r' → Alike rests' answers' (next a r) (next' b r')) :
    Alike rests' answers' ((m >>= next) t) ((m' >>= next') t') := by
  generalize hm : m t = found at h
  generalize hm' : m' t' = found' at h
  cases h with
  | found hanswers hrests =>
    rw [bind_ok hm, bind_ok hm']
    exact hnext _ _ _ _ hanswers hrests
  | missing =>
    rw [bind_error hm, bind_error hm']
    exact .missing _ _

theorem imp {answers' : α → β → Prop} {found : Except (List Char) (α × List Char)}
    {found' : Except (List Char) (β × List Char)} (h : Alike rests answers found found')
    (hrests : ∀ r r', rests r r' → rests' r r') (hanswers : ∀ a b, answers a b → answers' a b) :
    Alike rests' answers' found found' := by
  cases h with
  | found ha hr => exact .found (hanswers _ _ ha) (hrests _ _ hr)
  | missing => exact .missing _ _

/-- What is optional is there in both texts or in none of them, where nothing is taken. -/
theorem optional {m : Scanner α} {m' : Scanner β} (h : Alike rests answers (m t) (m' t'))
    (hrests : rests t t') :
    Alike rests (Option.Rel answers) (Scanner.optional m t) (Scanner.optional m' t') := by
  generalize hm : m t = found at h
  generalize hm' : m' t' = found' at h
  cases h with
  | found ha hr =>
    rw [optional_ok hm, optional_ok hm']
    exact .found (.some ha) hr
  | missing =>
    rw [optional_error hm, optional_error hm']
    exact .found .none hrests

/-- The second scanner finds something where the first one does. -/
theorem exists_ok {found : Except (List Char) (α × List Char)}
    {found' : Except (List Char) (β × List Char)} (h : Alike rests answers found found') {a : α}
    {r : List Char} (hok : found = .ok (a, r)) :
    ∃ b r', found' = .ok (b, r') ∧ answers a b ∧ rests r r' := by
  subst hok
  cases h with
  | found ha hr => exact ⟨_, _, rfl, ha, hr⟩

end Scanner.Alike

/-- An identifier is the longest run of characters of names, if that is one. -/
theorem Scanner.identifier_eq (text : List Char) : Scanner.identifier text =
    if isIdentifier (text.takeWhile isNameChar) = true then
      .ok (text.takeWhile isNameChar, text.dropWhile isNameChar)
    else .error text := by
  cases text with
  | nil => rfl
  | cons c text =>
    rw [Scanner.identifier]
    by_cases hc : isNameStart c = true
    · have hchar := isNameChar_of_isNameStart hc
      have hname : isIdentifier ((c :: text).takeWhile isNameChar) = true := by
        rw [List.takeWhile_cons_of_pos hchar, isIdentifier, hc, Bool.true_and,
          ← List.takeWhile_cons_of_pos hchar]
        exact List.all_takeWhile
      rw [if_pos hc, if_pos hname]
      rfl
    · have hname : ¬ isIdentifier ((c :: text).takeWhile isNameChar) = true := by
        by_cases hchar : isNameChar c = true
        · rw [List.takeWhile_cons_of_pos hchar, isIdentifier, Bool.eq_false_iff.2 hc,
            Bool.false_and]
          exact Bool.false_ne_true
        · rw [List.takeWhile_cons_of_neg hchar]
          exact Bool.false_ne_true
      rw [if_neg hc, if_neg hname]

namespace Variation.Related

variable {v : Variation} {t t' : List Char}

/-! ## Tokens -/

/-- **Related texts begin with the same run** of a class of characters in tokens. -/
theorem run (hv : v.Sound) {inClass : Char → Bool}
    (hclass : ∀ c, inClass c = true → isSolid c = true) (h : v.Related t t') :
    t'.takeWhile inClass = t.takeWhile inClass ∧
      v.Related (t.dropWhile inClass) (t'.dropWhile inClass) := by
  have hstops : ∀ {t t' : List Char}, StopsAt inClass t → StopsAt inClass t' → v.Related t t' →
      t'.takeWhile inClass = t.takeWhile inClass ∧
        v.Related (t.dropWhile inClass) (t'.dropWhile inClass) := by
    intro t t' ht ht' h
    rw [ht.takeWhile_eq, ht'.takeWhile_eq, ht.dropWhile_eq, ht'.dropWhile_eq]
    exact ⟨rfl, h⟩
  have hpercent : inClass '%' = false := Bool.eq_false_iff.2 fun hin => nomatch hclass _ hin
  induction h with
  | ends h =>
    obtain ⟨ht, ht'⟩ := hv.solid _ _ h
    exact hstops (ht.mono hclass) (ht'.mono hclass) (.ends h)
  | @char c t t' hcommon hmark hne more ih =>
    by_cases hc : inClass c = true
    · rw [List.takeWhile_cons_of_pos hc, List.takeWhile_cons_of_pos hc,
        List.dropWhile_cons_of_pos hc, List.dropWhile_cons_of_pos hc, ih.1]
      exact ⟨rfl, ih.2⟩
    · have hc' := Bool.eq_false_iff.2 hc
      exact hstops (stopsAt_cons hc' _) (stopsAt_cons hc' _) (.char hcommon hmark hne more)
  | value hname hstop hstop' more =>
    exact hstops (stopsAt_cons hpercent _) (stopsAt_cons hpercent _)
      (.value hname hstop hstop' more)
  | mark hc ha hb ha' hb' more =>
    exact hstops (stopsAt_mark hclass ha hc _) (stopsAt_mark hclass ha' hc _)
      (.mark hc ha hb ha' hb' more)

/-- **Related texts begin with the same character of a token.** -/
theorem head (hv : v.Sound) (h : v.Related t t') {c : Char} (hc : isSolid c = true)
    (hhead : t.head? = some c ∨ t'.head? = some c) :
    ∃ r r', t = c :: r ∧ t' = c :: r' ∧ v.Related r r' := by
  have hstops : ∀ {t t' : List Char}, StopsAt isSolid t → StopsAt isSolid t' →
      ¬ (t.head? = some c ∨ t'.head? = some c) :=
    fun ht ht' => not_or.2 ⟨ht.head?_ne hc, ht'.head?_ne hc⟩
  cases h with
  | ends h =>
    obtain ⟨ht, ht'⟩ := hv.solid _ _ h
    exact absurd hhead (hstops ht ht')
  | char hcommon hmark hne more =>
    obtain rfl := hhead.elim Option.some.inj Option.some.inj
    exact ⟨_, _, rfl, rfl, more⟩
  | value => exact absurd hhead (hstops (stopsAt_cons rfl _) (stopsAt_cons rfl _))
  | mark hmark ha hb ha' hb' more =>
    exact absurd hhead (hstops (stopsAt_mark (fun _ h => h) ha hmark _)
      (stopsAt_mark (fun _ h => h) ha' hmark _))

theorem takeSome (hv : v.Sound) {inClass : Char → Bool}
    (hclass : ∀ c, inClass c = true → isSolid c = true) (h : v.Related t t') :
    Alike v.Related Eq (Scanner.takeSome inClass t) (Scanner.takeSome inClass t') := by
  obtain ⟨htake, hdrop⟩ := h.run hv hclass
  unfold Scanner.takeSome
  rw [htake]
  split
  · exact .missing _ _
  · exact .found rfl hdrop

theorem token (hv : v.Sound) {word : List Char} (hword : word.all isSolid = true)
    (h : v.Related t t') :
    Alike v.Related (fun _ _ => True) (Scanner.token word t) (Scanner.token word t') := by
  have hsame : word.isPrefixOf t' = word.isPrefixOf t ∧
      (word.isPrefixOf t = true → v.Related (t.drop word.length) (t'.drop word.length)) := by
    induction word generalizing t t' with
    | nil => exact ⟨by simp, fun _ => h⟩
    | cons c word ih =>
      obtain ⟨hc, hword⟩ := Bool.and_eq_true_iff.1 hword
      by_cases hhead : t.head? = some c ∨ t'.head? = some c
      · obtain ⟨r, r', rfl, rfl, hr⟩ := h.head hv hc hhead
        obtain ⟨heq, hmore⟩ := ih hword hr
        simp only [List.isPrefixOf, beq_self_eq_true, Bool.true_and]
        exact ⟨heq, hmore⟩
      · obtain ⟨ht, ht'⟩ := not_or.1 hhead
        have hnot : ∀ {text : List Char}, text.head? ≠ some c →
            (c :: word).isPrefixOf text = false := by
          intro text htext
          cases text with
          | nil => rfl
          | cons d text =>
            have hne : (c == d) = false := beq_eq_false_iff_ne.2 fun heq => htext (heq ▸ rfl)
            rw [List.isPrefixOf, hne, Bool.false_and]
        rw [hnot ht, hnot ht']
        exact ⟨rfl, nofun⟩
  unfold Scanner.token
  rw [hsame.1]
  split
  · next hin => exact .found trivial (hsame.2 hin)
  · exact .missing _ _

theorem valueName (hv : v.Sound) (h : v.Related t t') :
    Alike v.Related v.names (Scanner.valueName t) (Scanner.valueName t') := by
  have hother : ∀ {t t' : List Char}, t.head? ≠ some '%' → t'.head? ≠ some '%' →
      Alike v.Related v.names (Scanner.valueName t) (Scanner.valueName t') := by
    intro t t' ht ht'
    have heq : ∀ {text : List Char}, text.head? ≠ some '%' →
        Scanner.valueName text = .error text := fun h => bind_error (token_error h)
    rw [heq ht, heq ht']
    exact .missing _ _
  cases h with
  | ends h => exact hother (hv.value _ _ h).1 (hv.value _ _ h).2
  | char hcommon hmark hne more =>
    exact hother (fun heq => hne (Option.some.inj heq)) fun heq => hne (Option.some.inj heq)
  | @value name name' t t' hname hstop hstop' more =>
    rcases hname with ⟨rfl, rfl⟩ | ⟨hname, hname', hnames⟩
    · have hnone : ∀ {text : List Char}, StopsAt isNameChar text →
          Scanner.valueName ('%' :: text) = .error text := by
        intro text htext
        refine (bind_ok (token_cons '%' _)).trans (bind_error ?_)
        rw [Scanner.takeSome, htext.takeWhile_eq]
        rfl
      rw [List.nil_append, List.nil_append, hnone hstop, hnone hstop']
      exact .missing _ _
    · have hsome : ∀ {name text : List Char}, isValueName name = true → StopsAt isNameChar text →
          Scanner.valueName ('%' :: (name ++ text)) = .ok (String.ofList name, text) := by
        intro name text hname htext
        have hname' : isValueName (String.ofList name).toList = true := by
          rwa [String.toList_ofList]
        have := valueName_append hname' htext
        rwa [String.toList_ofList] at this
      rw [hsome hname hstop, hsome hname' hstop']
      exact .found hnames more
  | mark hmark ha hb ha' hb' more =>
    have hne : ∀ {c : Char}, isMark c = true → c ≠ '%' := by
      rintro _ hc rfl
      cases hc
    exact hother (head?_blanks_ne ha (hne hmark) rfl _) (head?_blanks_ne ha' (hne hmark) rfl _)

theorem identifier (hv : v.Sound) (h : v.Related t t') :
    Alike v.Related Eq (Scanner.identifier t) (Scanner.identifier t') := by
  obtain ⟨htake, hdrop⟩ := h.run hv fun _ => isSolid_of_isNameChar
  rw [identifier_eq, identifier_eq, htake]
  split
  · exact .found rfl hdrop
  · exact .missing _ _

theorem mnemonic (hv : v.Sound) (h : v.Related t t') :
    Alike v.Related Eq (Scanner.mnemonic t) (Scanner.mnemonic t') := by
  refine (h.identifier hv).bind fun name _ r r' hname h => ?_
  subst hname
  have htail : Alike v.Related Eq ((do Scanner.token ['.']; Scanner.identifier) r)
      ((do Scanner.token ['.']; Scanner.identifier) r') :=
    (h.token hv (by decide)).bind fun _ _ r r' _ h => h.identifier hv
  refine (htail.optional h).bind fun tail? tail?' r r' htail h => ?_
  cases htail with
  | none => exact .found rfl h
  | some heq =>
    subst heq
    exact .found rfl h

theorem naturalDigits (hv : v.Sound) (h : v.Related t t') :
    Alike v.Related Eq (Scanner.naturalDigits t) (Scanner.naturalDigits t') := by
  by_cases hzero : t.head? = some '0' ∨ t'.head? = some '0'
  · obtain ⟨r, r', rfl, rfl, hr⟩ := h.head hv (by decide) hzero
    exact .found rfl hr
  · obtain ⟨ht, ht'⟩ := not_or.1 hzero
    have hother : ∀ {text : List Char}, text.head? ≠ some '0' →
        Scanner.naturalDigits text = Scanner.takeSome Char.isDigit text := by
      intro text htext
      unfold Scanner.naturalDigits
      split
      · exact absurd rfl htext
      · rfl
    rw [hother ht, hother ht']
    exact h.takeSome hv fun _ => isSolid_of_isDigit

theorem integer (hv : v.Sound) (h : v.Related t t') :
    Alike v.Related Eq (Scanner.integer t) (Scanner.integer t') := by
  have hminus : ['-'].all isSolid = true := by decide
  refine ((h.token hv hminus).optional h).bind fun sign sign' r r' hsign h => ?_
  have hsome : sign'.isSome = sign.isSome := by cases hsign <;> rfl
  rw [hsome]
  refine (h.naturalDigits hv).bind fun digits _ r r' hdigits h => ?_
  subst hdigits
  dsimp only
  generalize (if sign.isSome = true then -(Nat.ofDigitChars 10 digits 0 : Int)
    else Nat.ofDigitChars 10 digits 0) = value
  split
  · exact .found rfl h
  · exact .missing _ _

theorem double (hv : v.Sound) (h : v.Related t t') :
    Alike v.Related Eq (Scanner.double t) (Scanner.double t') := by
  refine (h.takeSome hv fun _ => isSolid_of_isDoubleChar).bind fun chars _ r r' hchars h => ?_
  subst hchars
  cases Double.read? chars with
  | some x => exact .found rfl h
  | none => exact .missing _ _

theorem literal (hv : v.Sound) (h : v.Related t t') (mnemonic : String) :
    Alike v.Related Eq (Scanner.literal mnemonic t) (Scanner.literal mnemonic t') := by
  unfold Scanner.literal
  split
  · refine (h.integer hv).bind fun value _ r r' hvalue h => ?_
    subst hvalue
    exact .found rfl h
  · split
    · refine (h.double hv).bind fun x _ r r' hx h => ?_
      subst hx
      exact .found rfl h
    · exact .found rfl h

/-! ## Blanks and marks -/

theorem blank (hv : v.Sound) (h : v.Related t t') : v.Loose t t' := by
  have hpercent : isBlank '%' = false := rfl
  unfold Loose
  induction h with
  | ends h => exact hv.blank _ _ h
  | @char c t t' hcommon hmark hne more ih =>
    by_cases hc : isBlank c = true
    · rwa [List.dropWhile_cons_of_pos hc, List.dropWhile_cons_of_pos hc]
    · rw [List.dropWhile_cons_of_neg hc, List.dropWhile_cons_of_neg hc]
      exact .char hcommon hmark hne more
  | value hname hstop hstop' more =>
    rw [List.dropWhile_cons_of_neg (by decide), List.dropWhile_cons_of_neg (by decide)]
    exact .value hname hstop hstop' more
  | mark hc ha hb ha' hb' more =>
    have hstop := not_isBlank_of_isMark hc
    rw [ha.dropWhile, ha'.dropWhile, List.dropWhile_cons_of_neg (by simp [hstop]),
      List.dropWhile_cons_of_neg (by simp [hstop])]
    exact .mark hc isBlanks_nil hb isBlanks_nil hb' more

theorem space (hspace : v.SoundSpace) (h : v.Related t t') : v.LooseSpace t t' := by
  unfold LooseSpace
  induction h with
  | ends h => exact hspace _ _ h
  | @char c t t' hcommon hmark hne more ih =>
    by_cases hc : isSpace c = true
    · rwa [List.dropWhile_cons_of_pos hc, List.dropWhile_cons_of_pos hc]
    · rw [List.dropWhile_cons_of_neg hc, List.dropWhile_cons_of_neg hc]
      exact .char hcommon hmark hne more
  | value hname hstop hstop' more =>
    rw [List.dropWhile_cons_of_neg (by decide), List.dropWhile_cons_of_neg (by decide)]
    exact .value hname hstop hstop' more
  | mark hc ha hb ha' hb' more =>
    have hstop := not_isSpace_of_isMark hc
    rw [ha.dropWhile_isSpace, ha'.dropWhile_isSpace, List.dropWhile_cons_of_neg (by simp [hstop]),
      List.dropWhile_cons_of_neg (by simp [hstop])]
    exact .mark hc isBlanks_nil hb isBlanks_nil hb' more

end Variation.Related

namespace Variation

variable {v : Variation} {t t' : List Char}

/-- Behind a mark, related texts are related again where their blanks end. -/
theorem Tight.markToken (hv : v.Sound) {c : Char} (hc : isMark c = true) (hends : v.Keeps c)
    (h : v.Tight t t') :
    Alike v.Loose (fun _ _ => True) (Scanner.token [c] t) (Scanner.token [c] t') := by
  obtain ⟨hrelated, hstop, hstop'⟩ := h
  have hother : ∀ {t t' : List Char}, t.head? ≠ some c → t'.head? ≠ some c →
      Alike v.Loose (fun _ _ => True) (Scanner.token [c] t) (Scanner.token [c] t') := by
    intro t t' ht ht'
    rw [token_error ht, token_error ht']
    exact .missing _ _
  have hnil : ∀ {a rest : List Char}, IsBlanks a → StopsAt isBlank (a ++ rest) → a = [] := by
    intro a rest ha hstop
    cases a with
    | nil => rfl
    | cons b a => exact absurd rfl (hstop.head?_ne (ha b List.mem_cons_self))
  cases hrelated with
  | ends h => exact hother (hends _ _ h).1 (hends _ _ h).2
  | @char d t t' hcommon hmark hne more =>
    have hd : d ≠ c := by
      rintro rfl
      simp [hc] at hmark
    exact hother (fun heq => hd (Option.some.inj heq)) fun heq => hd (Option.some.inj heq)
  | value =>
    have hd : '%' ≠ c := by
      rintro rfl
      exact absurd hc (by decide)
    exact hother (fun heq => hd (Option.some.inj heq)) fun heq => hd (Option.some.inj heq)
  | @mark d a b a' b' t t' hd ha hb ha' hb' more =>
    obtain rfl := hnil ha hstop
    obtain rfl := hnil ha' hstop'
    by_cases heq : d = c
    · subst heq
      rw [List.nil_append, List.nil_append, token_cons, token_cons]
      refine .found trivial ?_
      rw [Loose, hb.dropWhile, hb'.dropWhile]
      exact more.blank hv
    · exact hother (fun hhead => heq (Option.some.inj hhead))
        fun hhead => heq (Option.some.inj hhead)

theorem Loose.blank (h : v.Loose t t') :
    Alike v.Tight (fun _ _ => True) (Scanner.blank t) (Scanner.blank t') :=
  .found trivial ⟨h, stopsAt_dropWhile _ _, stopsAt_dropWhile _ _⟩

theorem LooseSpace.space (h : v.LooseSpace t t') :
    Alike v.TightSpace (fun _ _ => True) (Scanner.space t) (Scanner.space t') :=
  .found trivial ⟨h, stopsAt_dropWhile _ _, stopsAt_dropWhile _ _⟩

theorem Tight.loose (h : v.Tight t t') : v.Loose t t' := by
  rw [Loose, h.stop.dropWhile_eq, h.stop'.dropWhile_eq]
  exact h.related

theorem TightSpace.looseSpace (h : v.TightSpace t t') : v.LooseSpace t t' := by
  rw [LooseSpace, h.stop.dropWhile_eq, h.stop'.dropWhile_eq]
  exact h.related

theorem TightSpace.tight (h : v.TightSpace t t') : v.Tight t t' :=
  ⟨h.related, h.stop.mono fun _ => isSpace_of_blank, h.stop'.mono fun _ => isSpace_of_blank⟩

theorem dropWhile_isSpace_dropWhile_isBlank (text : List Char) :
    (text.dropWhile isBlank).dropWhile isSpace = text.dropWhile isSpace := by
  induction text with
  | nil => rfl
  | cons c text ih =>
    by_cases hc : isBlank c = true
    · rw [List.dropWhile_cons_of_pos hc, List.dropWhile_cons_of_pos (isSpace_of_blank hc), ih]
    · rw [List.dropWhile_cons_of_neg hc]

theorem Loose.looseSpace (hspace : v.SoundSpace) (h : v.Loose t t') : v.LooseSpace t t' := by
  have := h.space hspace
  rwa [LooseSpace, dropWhile_isSpace_dropWhile_isBlank, dropWhile_isSpace_dropWhile_isBlank] at this

end Variation

/-! ## What scanners take -/

/-- The scanner takes only characters of the class off the front of a text. -/
def Takes {α : Type} (inClass : Char → Bool) (m : Scanner α) : Prop :=
  ∀ text a rest, m text = .ok (a, rest) →
    ∃ taken, text = taken ++ rest ∧ ∀ c ∈ taken, inClass c = true

namespace Takes

variable {α β : Type} {inClass inClass' : Char → Bool} {m : Scanner α}

theorem length_le (h : Takes inClass m) {text rest : List Char} {a : α}
    (hok : m text = .ok (a, rest)) : rest.length ≤ text.length := by
  obtain ⟨taken, rfl, -⟩ := h text a rest hok
  rw [List.length_append]
  exact Nat.le_add_left _ _

theorem bind {next : α → Scanner β} (hm : Takes inClass m) (hnext : ∀ a, Takes inClass (next a)) :
    Takes inClass (m >>= next) := by
  intro text b rest h
  obtain ⟨a, middle, hfirst, hsecond⟩ := Scanner.bind_eq_ok.1 h
  obtain ⟨taken, rfl, htaken⟩ := hm _ _ _ hfirst
  obtain ⟨taken', rfl, htaken'⟩ := hnext a _ _ _ hsecond
  exact ⟨taken ++ taken', (List.append_assoc ..).symm,
    fun c hc => (List.mem_append.1 hc).elim (htaken c) (htaken' c)⟩

theorem pure (a : α) : Takes inClass (pure a : Scanner α) := by
  rintro text _ _ ⟨⟩
  exact ⟨[], rfl, nofun⟩

theorem takeMany (hclass : ∀ c, inClass' c = true → inClass c = true) :
    Takes inClass (Scanner.takeMany inClass') := by
  rintro text _ _ ⟨⟩
  exact ⟨text.takeWhile inClass', List.takeWhile_append_dropWhile.symm,
    fun c hc => hclass c (List.all_eq_true.1 List.all_takeWhile c hc)⟩

theorem takeSome (hclass : ∀ c, inClass' c = true → inClass c = true) :
    Takes inClass (Scanner.takeSome inClass') := by
  intro text a rest h
  unfold Scanner.takeSome at h
  split at h
  · cases h
  · exact takeMany hclass text a rest h

theorem token {expected : List Char} (hclass : ∀ c ∈ expected, inClass c = true) :
    Takes inClass (Scanner.token expected) := by
  intro text a rest h
  unfold Scanner.token at h
  split at h
  · next hfound =>
    cases h
    exact ⟨expected, (List.prefix_iff_eq_append.1 (List.isPrefixOf_iff_prefix.1 hfound)).symm, hclass⟩
  · cases h

theorem identifier (hclass : ∀ c, isNameChar c = true → inClass c = true) :
    Takes inClass Scanner.identifier := by
  intro text a rest h
  rw [identifier_eq] at h
  split at h
  · exact takeMany hclass text a rest h
  · cases h

theorem blank (hclass : ∀ c, isBlank c = true → inClass c = true) : Takes inClass Scanner.blank :=
  (takeMany hclass).bind fun _ => pure _

theorem space (hclass : ∀ c, isSpace c = true → inClass c = true) : Takes inClass Scanner.space :=
  (takeMany hclass).bind fun _ => pure _

theorem valueName (hpercent : inClass '%' = true)
    (hclass : ∀ c, isNameChar c = true → inClass c = true) : Takes inClass Scanner.valueName :=
  (token fun c hc => by rwa [List.mem_singleton.1 hc]).bind fun _ =>
    (takeSome hclass).bind fun _ => pure _

end Takes

/-! ## Items with commas between them -/

section Separated

variable {α : Type} {inClass : Char → Bool} {item : Scanner α}
  {before after : List Char → List Char → Prop} {answers : α → α → Prop} {t t' : List Char}

theorem length_lt_of_comma (htakes : Takes inClass item) {a : α} {rest : List Char}
    (h : (do Scanner.token [',']; item) t = .ok (a, rest)) : rest.length < t.length := by
  obtain ⟨_, middle, htoken, hitem⟩ := Scanner.bind_eq_ok.1 h
  by_cases hcomma : t.head? = some ','
  · obtain ⟨more, rfl⟩ := List.head?_eq_some_iff.1 hcomma
    rw [token_cons] at htoken
    cases htoken
    exact Nat.lt_succ_of_le (htakes.length_le hitem)
  · rw [token_error hcomma] at htoken
    cases htoken

theorem itemsAfterComma_error {rest : List Char}
    (h : (do Scanner.token [',']; item) t = .error rest) (fuel : Nat) :
    itemsAfterComma item fuel t = .ok ([], t) := by
  cases fuel with
  | zero => rfl
  | succ fuel => exact bind_ok (optional_error h)

/-- **Items behind commas are scanned alike**, whatever the bounds on their numbers, as long as
these are no less than the lengths of the texts. -/
theorem itemsAfterComma_alike (htakes : Takes inClass item)
    (hcomma : ∀ t t', after t t' →
      Alike before (fun _ _ => True) (Scanner.token [','] t) (Scanner.token [','] t'))
    (hitem : ∀ t t', before t t' → Alike after answers (item t) (item t')) {fuel fuel' : Nat}
    (hfuel : t.length ≤ fuel) (hfuel' : t'.length ≤ fuel') (h : after t t') :
    Alike after (List.Forall₂ answers) (itemsAfterComma item fuel t)
      (itemsAfterComma item fuel' t') := by
  induction hn : t.length using Nat.strongRecOn generalizing t t' fuel fuel' with
  | ind n ih =>
    have hnext : Alike after answers ((do Scanner.token [',']; item) t)
        ((do Scanner.token [',']; item) t') :=
      (hcomma t t' h).bind fun _ _ r r' _ hbefore => hitem r r' hbefore
    generalize hm : (do Scanner.token [',']; item) t = found at hnext
    generalize hm' : (do Scanner.token [',']; item) t' = found' at hnext
    cases hnext with
    | missing =>
      rw [itemsAfterComma_error hm, itemsAfterComma_error hm']
      exact .found .nil h
    | @found a a' r r' hanswer hrest =>
      have hlt := length_lt_of_comma htakes hm
      have hlt' := length_lt_of_comma htakes hm'
      obtain ⟨k, rfl⟩ : ∃ k, fuel = k + 1 := ⟨fuel - 1, by omega⟩
      obtain ⟨k', rfl⟩ : ∃ k', fuel' = k' + 1 := ⟨fuel' - 1, by omega⟩
      have hmore : Alike after (List.Forall₂ answers) (itemsAfterComma item k r)
          (itemsAfterComma item k' r') :=
        ih r.length (hn ▸ hlt) (by omega) (by omega) hrest rfl
      unfold itemsAfterComma
      rw [bind_ok (optional_ok hm), bind_ok (optional_ok hm')]
      exact Alike.bind hmore fun xs xs' r r' hxs hr => .found (List.Forall₂.cons hanswer hxs) hr

/-- **Items with commas between them are scanned alike.** -/
theorem separated_alike (htakes : Takes inClass item)
    (hcomma : ∀ t t', after t t' →
      Alike before (fun _ _ => True) (Scanner.token [','] t) (Scanner.token [','] t'))
    (hitem : ∀ t t', before t t' → Alike after answers (item t) (item t')) (h : before t t') :
    Alike after (List.Forall₂ answers) (separated item t) (separated item t') := by
  refine (hitem t t' h).bind fun x x' r r' hx hr => ?_
  exact (itemsAfterComma_alike htakes hcomma hitem (Nat.le_refl _) (Nat.le_refl _) hr).bind
    fun xs xs' r r' hxs hr => .found (List.Forall₂.cons hx hxs) hr

end Separated

/-! ## Parts of lines and headers -/

namespace Scanner

/-- The name of the value that a line defines, with the `=` behind it. -/
def resultName : Scanner String := do
  let name ← valueName
  blank
  token ['=']
  blank
  return name

/-- An operand, with the blanks around it. -/
def operand : Scanner String := do
  blank
  let name ← valueName
  blank
  return name

/-- The type of a line. -/
def lineType : Scanner (List Char) := do
  blank
  token [':']
  blank
  identifier

/-- A line up to its type. -/
def lineFront (offset : Nat) : Scanner Line := do
  let result? ← optional resultName
  let mnemonic ← mnemonic
  blank
  let literal? ← literal mnemonic
  blank
  let operands ← optional (separated operand)
  return ⟨offset, result?, mnemonic, literal?, operands.getD [], none⟩

/-- The rest of a line: its type and the blanks at its end. -/
def lineBack : Scanner (Option String) := do
  let ty? ← optional lineType
  blank
  return ty?.map String.ofList

/-- A line is scanned in two parts. -/
theorem line_eq (offset : Nat) : line offset = do
    let front ← lineFront offset
    let ty? ← lineBack
    return { front with ty? } := by
  simp only [line, lineFront, lineBack, bind_assoc, pure_bind]
  rfl

/-- A header up to its opening brace. -/
def headerFront : Scanner Header := do
  space
  token "program".toList
  space
  token ['@']
  let name ← identifier
  token ['(']
  space
  let params ← optional (separated param)
  space
  token [')']
  space
  return ⟨String.ofList name, params.getD []⟩

theorem header_eq : header = do
    let front ← headerFront
    token ['\x7b']
    return front := by
  simp only [header, headerFront, bind_assoc, pure_bind]

end Scanner

theorem takes_operand : Takes isLineChar Scanner.operand :=
  (Takes.blank fun _ => isLineChar_of_isBlank).bind fun _ =>
    (Takes.valueName rfl fun _ => isLineChar_of_isNameChar).bind fun _ =>
      (Takes.blank fun _ => isLineChar_of_isBlank).bind fun _ => .pure _

theorem takes_param : Takes (fun _ => true) Scanner.param :=
  (Takes.space fun _ _ => rfl).bind fun _ => (Takes.valueName rfl fun _ _ => rfl).bind fun _ =>
    (Takes.space fun _ _ => rfl).bind fun _ => (Takes.token fun _ _ => rfl).bind fun _ =>
      (Takes.space fun _ _ => rfl).bind fun _ => (Takes.identifier fun _ _ => rfl).bind fun _ =>
        (Takes.space fun _ _ => rfl).bind fun _ => .pure _

/-- Lines that say the same, up to names and types. -/
structure Line.SameFront (names : String → String → Prop) (line line' : Line) : Prop where
  result : Option.Rel names line.result? line'.result?
  mnemonic : line'.mnemonic = line.mnemonic
  literal : line'.literal? = line.literal?
  operands : List.Forall₂ names line.operands line'.operands

/-- Headers that say the same, up to names. -/
structure Header.Same (names : String → String → Prop) (header header' : Header) : Prop where
  name : header'.name = header.name
  params : List.Forall₂ (fun param param' => names param.1 param'.1 ∧ param'.2 = param.2)
    header.params header'.params

namespace Variation

variable {v : Variation} {t t' : List Char}

theorem Loose.operand (hv : v.Sound) (h : v.Loose t t') :
    Alike v.Tight v.names (Scanner.operand t) (Scanner.operand t') := by
  refine h.blank.bind fun _ _ r r' _ h => ?_
  refine (h.related.valueName hv).bind fun name name' r r' hname h => ?_
  exact (h.blank hv).blank.bind fun _ _ r r' _ h => .found hname h

theorem LooseSpace.param (hv : v.Sound) (hspace : v.SoundSpace) (hcolon : v.Keeps ':')
    (h : v.LooseSpace t t') :
    Alike v.TightSpace (fun param param' => v.names param.1 param'.1 ∧ param'.2 = param.2)
      (Scanner.param t) (Scanner.param t') := by
  refine h.space.bind fun _ _ r r' _ h => ?_
  refine (h.related.valueName hv).bind fun name name' r r' hname h => ?_
  refine (h.space hspace).space.bind fun _ _ r r' _ h => ?_
  refine (h.tight.markToken hv rfl hcolon).bind fun _ _ r r' _ h => ?_
  refine (h.looseSpace hspace).space.bind fun _ _ r r' _ h => ?_
  refine (h.related.identifier hv).bind fun ty _ r r' hty h => ?_
  subst hty
  exact (h.space hspace).space.bind fun _ _ r r' _ h => .found ⟨hname, rfl⟩ h

end Variation

namespace Variation.Related

variable {v : Variation} {t t' : List Char}

theorem resultName (hv : v.Sound) (hmark : v.Keeps '=') (h : v.Related t t') :
    Alike v.Related v.names (Scanner.resultName t) (Scanner.resultName t') := by
  refine (h.valueName hv).bind fun name name' r r' hname h => ?_
  refine ((h.blank hv).blank).bind fun _ _ r r' _ h => ?_
  refine (Tight.markToken hv rfl hmark h).bind fun _ _ r r' _ h => ?_
  exact h.blank.bind fun _ _ r r' _ h => .found hname h.related

/-- **Lines are scanned alike up to their types**, wherever they are. -/
theorem lineFront (hv : v.Sound) (hmark : v.Keeps '=') (hcomma : v.Keeps ',') (h : v.Related t t')
    (offset offset' : Nat) :
    Alike v.Tight (Line.SameFront v.names) (Scanner.lineFront offset t)
      (Scanner.lineFront offset' t') := by
  refine ((h.resultName hv hmark).optional h).bind fun result? result?' r r' hresult h => ?_
  refine (h.mnemonic hv).bind fun mnemonic _ r r' hmnemonic h => ?_
  subst hmnemonic
  refine (h.blank hv).blank.bind fun _ _ r r' _ h => ?_
  refine (h.related.literal hv mnemonic).bind fun literal? _ r r' hliteral h => ?_
  subst hliteral
  refine (h.blank hv).blank.bind fun _ _ r r' _ h => ?_
  have hoperands : Alike v.Tight (List.Forall₂ v.names) (separated Scanner.operand r)
      (separated Scanner.operand r') :=
    separated_alike takes_operand (fun _ _ h => h.markToken hv rfl hcomma)
      (fun _ _ h => h.operand hv) h.loose
  refine (hoperands.optional h).bind fun operands operands' r r' hoperands h => ?_
  refine .found ⟨hresult, rfl, rfl, ?_⟩ h
  cases hoperands with
  | none => exact .nil
  | some h => exact h

/-- **The types of lines are scanned alike.** -/
theorem lineBack (hv : v.Sound) (hcolon : v.Keeps ':') (h : v.Tight t t') :
    Alike v.Tight Eq (Scanner.lineBack t) (Scanner.lineBack t') := by
  have hlineType : Alike v.Related Eq (Scanner.lineType t) (Scanner.lineType t') := by
    refine h.loose.blank.bind fun _ _ r r' _ h => ?_
    refine (Tight.markToken hv rfl hcolon h).bind fun _ _ r r' _ h => ?_
    exact h.blank.bind fun _ _ r r' _ h => h.related.identifier hv
  refine (hlineType.optional h.related).bind fun ty? ty?' r r' hty h => ?_
  refine (h.blank hv).blank.bind fun _ _ r r' _ h => ?_
  refine .found ?_ h
  cases hty with
  | none => rfl
  | some heq => rw [heq]

/-- **Lines are scanned alike**, wherever they are. -/
theorem line (hv : v.Sound) (hmarks : ∀ c, isMark c = true → v.Keeps c) (h : v.Related t t')
    (offset offset' : Nat) :
    Alike v.Tight
      (fun line line' => line.SameFront v.names line' ∧ line'.ty? = line.ty?)
      (Scanner.line offset t) (Scanner.line offset' t') := by
  rw [line_eq, line_eq]
  refine (h.lineFront hv (hmarks _ rfl) (hmarks _ rfl) offset offset').bind
    fun front front' r r' hfront h => ?_
  refine (lineBack hv (hmarks _ rfl) h).bind fun ty? ty?' r r' hty h => ?_
  exact .found ⟨⟨hfront.result, hfront.mnemonic, hfront.literal, hfront.operands⟩, hty.symm⟩ h

/-- **Headers are scanned alike** up to their opening braces. -/
theorem headerFront (hv : v.Sound) (hspace : v.SoundSpace) (hcolon : v.Keeps ':')
    (hcomma : v.Keeps ',') (h : v.Related t t') :
    Alike v.TightSpace (Header.Same v.names) (Scanner.headerFront t) (Scanner.headerFront t') := by
  refine (h.space hspace).space.bind fun _ _ r r' _ h => ?_
  refine (h.related.token hv (by decide)).bind fun _ _ r r' _ h => ?_
  refine (h.space hspace).space.bind fun _ _ r r' _ h => ?_
  refine (h.related.token hv (by decide)).bind fun _ _ r r' _ h => ?_
  refine (h.identifier hv).bind fun name _ r r' hname h => ?_
  subst hname
  refine (h.token hv (by decide)).bind fun _ _ r r' _ h => ?_
  refine (h.space hspace).space.bind fun _ _ r r' _ h => ?_
  have hparams : Alike v.TightSpace
      (List.Forall₂ fun param param' => v.names param.1 param'.1 ∧ param'.2 = param.2)
      (separated Scanner.param r) (separated Scanner.param r') := separated_alike takes_param
    (fun _ _ h => (h.tight.markToken hv rfl hcomma).imp (fun _ _ h => h.looseSpace hspace)
      fun _ _ h => h)
    (fun _ _ h => h.param hv hspace hcolon) h.looseSpace
  refine (hparams.optional h).bind fun params params' r r' hparams h => ?_
  refine (h.related.space hspace).space.bind fun _ _ r r' _ h => ?_
  refine (h.related.token hv (by decide)).bind fun _ _ r r' _ h => ?_
  refine (h.space hspace).space.bind fun _ _ r r' _ h => .found ⟨rfl, ?_⟩ h
  cases hparams with
  | none => exact .nil
  | some h => exact h

end Variation.Related

end Mba.Listing
