import Mathlib.Data.List.TakeWhile
import Mba.Proofs.Edit
import Mba.Proofs.Listing.Variants

/-!
# The front of a text

A text is taken apart from its front to its end, and what stands behind a line cannot change how the
text before it was taken apart. So a text that is a listing can be cut in front of any of its lines:
with a closing brace behind it the front is the listing of the lines before, and with other lines
behind it these are added to the same lines.

Results:
* `header_split`: a header ends at the first opening brace, whatever stands behind it.
* `Passes.append`, `passes_space`, `passes_line`: fronts of the lines of a text.
* `scanLines_eq_ok`: what lines that are scanned begin with.
* `Opens.append`, `Opens.close`: fronts go on with lines, or end with a closing brace.
* `opens_of_brace`: what a closing brace makes a text is a front of other texts.
* `exists_opens`: a listing can be cut in front of each of its lines.
-/

namespace Mba.Listing

open Scanner Variation

/-! ## Lengths in bytes -/

theorem byteLength_cons (c : Char) (text : List Char) :
    byteLength (c :: text) = c.utf8Size + byteLength text := by
  have hfold : ∀ (text : List Char) (n : Nat),
      text.foldl (fun bytes c => bytes + c.utf8Size) n = n + byteLength text := by
    intro text
    induction text with
    | nil => exact fun n => rfl
    | cons d text ih =>
      intro n
      rw [byteLength, List.foldl_cons, List.foldl_cons, ih, ih, Nat.zero_add, Nat.add_assoc]
  rw [byteLength, List.foldl_cons, hfold, Nat.zero_add]

theorem byteLength_append (front rest : List Char) :
    byteLength (front ++ rest) = byteLength front + byteLength rest := by
  induction front with
  | nil => exact (Nat.zero_add _).symm
  | cons c front ih => rw [List.cons_append, byteLength_cons, byteLength_cons, ih, Nat.add_assoc]

theorem utf8Size_of_isSpace {c : Char} (h : isSpace c = true) : c.utf8Size = 1 := by
  simp only [isSpace, Bool.or_eq_true, decide_eq_true_eq] at h
  rcases h with (((rfl | rfl) | rfl) | rfl) | rfl <;> rfl

theorem byteLength_of_isSpace {text : List Char} (h : ∀ c ∈ text, isSpace c = true) :
    byteLength text = text.length := by
  induction text with
  | nil => rfl
  | cons c text ih =>
    obtain ⟨hc, htext⟩ := List.forall_mem_cons.1 h
    rw [byteLength_cons, utf8Size_of_isSpace hc, ih htext, List.length_cons, Nat.add_comm]

/-! ## Headers -/

namespace Variation

/-- Texts that are the same up to an opening brace, and have none before. -/
def untilBrace (rest rest' : List Char) : Variation where
  names := Eq
  common c := c ≠ '\x7b'
  ends t t' := t = '\x7b' :: rest ∧ t' = '\x7b' :: rest'

theorem sound_untilBrace (rest rest' : List Char) : (untilBrace rest rest').Sound where
  solid := by
    rintro _ _ ⟨rfl, rfl⟩
    exact ⟨stopsAt_cons rfl _, stopsAt_cons rfl _⟩
  value := by
    rintro _ _ ⟨rfl, rfl⟩
    exact ⟨by simp, by simp⟩
  blank := by
    rintro _ _ ⟨rfl, rfl⟩
    exact .ends ⟨rfl, rfl⟩

theorem soundSpace_untilBrace (rest rest' : List Char) : (untilBrace rest rest').SoundSpace := by
  rintro _ _ ⟨rfl, rfl⟩
  exact .ends ⟨rfl, rfl⟩

theorem keeps_untilBrace (rest rest' : List Char) {c : Char} (hc : c ≠ '\x7b') :
    (untilBrace rest rest').Keeps c := by
  rintro _ _ ⟨rfl, rfl⟩
  exact ⟨fun heq => hc (Option.some.inj heq).symm, fun heq => hc (Option.some.inj heq).symm⟩

variable {v : Variation}

/-- Texts are related that have the same characters in front of related ones. -/
theorem Related.prepend (hnames : ∀ name, v.names name name) {front t t' : List Char}
    (hcommon : ∀ c ∈ front, v.common c) (hstop : StopsAt isNameChar t)
    (hstop' : StopsAt isNameChar t') (h : v.Related t t') : v.Related (front ++ t) (front ++ t') := by
  induction hn : front.length using Nat.strongRecOn generalizing front with
  | ind n ih =>
    cases front with
    | nil => exact h
    | cons c front =>
      obtain ⟨hc, hfront⟩ := List.forall_mem_cons.1 hcommon
      rw [List.length_cons] at hn
      by_cases hpercent : c = '%'
      · -- the name behind the `%` ends before `t`, which does not begin with a part of a name
        subst hpercent
        have hdrop := List.dropWhile_suffix (l := front) isNameChar
        have hmore := ih _ (by have := hdrop.length_le; omega)
          (fun c hc => hfront c (hdrop.subset hc)) rfl
        have hsplit := List.takeWhile_append_dropWhile (p := isNameChar) (l := front)
        have hstops : ∀ {t : List Char}, StopsAt isNameChar t →
            StopsAt isNameChar (front.dropWhile isNameChar ++ t) := by
          intro t ht
          cases hrest : front.dropWhile isNameChar with
          | nil => exact ht
          | cons d rest =>
            have := stopsAt_dropWhile isNameChar front
            rw [hrest] at this
            exact stopsAt_cons (this d rfl) _
        have hname : v.SameName (front.takeWhile isNameChar) (front.takeWhile isNameChar) := by
          by_cases hnil : front.takeWhile isNameChar = []
          · exact .inl ⟨hnil, hnil⟩
          · have hvalue : isValueName (front.takeWhile isNameChar) = true := by
              rw [isValueName, List.all_takeWhile, Bool.and_true]
              simpa using hnil
            exact .inr ⟨hvalue, hvalue, hnames _⟩
        have := Related.value hname (hstops hstop) (hstops hstop') hmore
        rwa [← List.append_assoc, ← List.append_assoc, hsplit] at this
      · have hmore := ih front.length (by omega) hfront rfl
        by_cases hmark : isMark c = true
        · have := Related.mark hmark isBlanks_nil isBlanks_nil isBlanks_nil isBlanks_nil hmore
          exact this
        · exact .char hc (Bool.eq_false_iff.2 hmark) hpercent hmore

/-- Where braces are not in common, a text that begins with one is at its end. -/
theorem Related.ends_of_brace (hbrace : ¬ v.common '\x7b') {rest t' : List Char}
    (h : v.Related ('\x7b' :: rest) t') : v.ends ('\x7b' :: rest) t' := by
  generalize ht : '\x7b' :: rest = t at h
  cases h with
  | ends h => exact h
  | char hcommon hmark hne more =>
    cases ht
    exact absurd hcommon hbrace
  | value =>
    exact absurd (List.cons.inj ht).1 (by decide)
  | mark hc ha =>
    have hne : ∀ {c : Char}, isMark c = true → c ≠ '\x7b' := by
      rintro _ hc rfl
      cases hc
    exact absurd (congrArg List.head? ht).symm (head?_blanks_ne ha (hne hc) rfl _)

end Variation

theorem Header.Same.eq {header header' : Header} (h : header.Same Eq header') : header' = header := by
  obtain ⟨name, params⟩ := header
  obtain ⟨name', params'⟩ := header'
  obtain ⟨hname, hparams⟩ := h
  have heq : List.Forall₂ Eq params params' :=
    hparams.imp fun _ _ h => Prod.ext h.1 h.2.symm
  rw [List.forall₂_eq_eq_eq] at heq
  cases hname
  cases heq
  rfl

/-- A header is its front and an opening brace. -/
theorem header_eq_ok {text rest : List Char} {header : Header} :
    Scanner.header text = .ok (header, rest) ↔ headerFront text = .ok (header, '\x7b' :: rest) := by
  rw [header_eq]
  constructor
  · intro h
    obtain ⟨_, middle, hfront, h⟩ := Scanner.bind_eq_ok.1 h
    obtain ⟨_, _, htoken, hpure⟩ := Scanner.bind_eq_ok.1 h
    cases hpure
    by_cases hhead : middle.head? = some '\x7b'
    · obtain ⟨more, rfl⟩ := List.head?_eq_some_iff.1 hhead
      rw [token_cons] at htoken
      cases htoken
      exact hfront
    · rw [token_error hhead] at htoken
      cases htoken
  · intro h
    exact Scanner.bind_eq_ok.2 ⟨_, _, h, Scanner.bind_eq_ok.2 ⟨_, _, token_cons _ _, rfl⟩⟩

/-- **A header ends at the first opening brace**, and is the same whatever stands behind it. -/
theorem header_split {text rest : List Char} {header : Header}
    (h : Scanner.header text = .ok (header, rest)) :
    ∃ front, text = front ++ '\x7b' :: rest ∧ '\x7b' ∉ front ∧
      ∀ rest', Scanner.header (front ++ '\x7b' :: rest') = .ok (header, rest') := by
  have hfront := header_eq_ok.1 h
  by_cases hbrace : '\x7b' ∈ text
  · obtain ⟨front, more, rfl, hnot⟩ := List.eq_append_cons_of_mem hbrace
    -- what stands behind the brace may be replaced, as the header does not look at it
    have halike : ∀ rest', ∃ header' r', headerFront (front ++ '\x7b' :: rest') = .ok (header', r') ∧
        header' = header ∧ rest = more ∧ r' = '\x7b' :: rest' := by
      intro rest'
      have hrelated : (untilBrace more rest').Related (front ++ '\x7b' :: more)
          (front ++ '\x7b' :: rest') :=
        .prepend (fun _ => rfl) (fun c hc => fun heq => hnot (heq ▸ hc)) (stopsAt_cons rfl _)
          (stopsAt_cons rfl _) (.ends ⟨rfl, rfl⟩)
      obtain ⟨header', r', hfront', hsame, htight⟩ := (hrelated.headerFront
        (sound_untilBrace _ _) (soundSpace_untilBrace _ _) (keeps_untilBrace _ _ (by decide))
        (keeps_untilBrace _ _ (by decide))).exists_ok hfront
      have hcommon : ¬ (untilBrace more rest').common '\x7b' := fun h => h rfl
      obtain ⟨heq, hr'⟩ := htight.related.ends_of_brace hcommon
      exact ⟨header', r', hfront', hsame.eq, (List.cons.inj heq).2, hr'⟩
    obtain ⟨-, -, -, -, rfl, -⟩ := halike []
    refine ⟨front, rfl, hnot, fun rest' => ?_⟩
    obtain ⟨_, _, hfront', rfl, -, rfl⟩ := halike rest'
    exact header_eq_ok.2 hfront'
  · exfalso
    let v := whole Eq (· ≠ '\x7b')
    have hrelated : v.Related (text ++ []) (text ++ []) :=
      .prepend (fun _ => rfl) (fun c hc => fun heq => hbrace (heq ▸ hc)) (stopsAt_nil _)
        (stopsAt_nil _) (.ends ⟨rfl, rfl⟩)
    rw [List.append_nil] at hrelated
    obtain ⟨header', r', -, -, htight⟩ := (hrelated.headerFront (sound_whole _ _)
      (soundSpace_whole _ _) (keeps_whole _ _ _) (keeps_whole _ _ _)).exists_ok hfront
    have hcommon : ¬ v.common '\x7b' := fun h => h rfl
    obtain ⟨heq, -⟩ := htight.related.ends_of_brace hcommon
    cases heq

/-! ## Lines -/

/-- A text has one line, or a first line and more behind it. -/
theorem splitLines_cases (text : List Char) :
    '\n' ∉ text ∧ splitLines text = [text] ∨
      ∃ line more, text = line ++ '\n' :: more ∧ '\n' ∉ line ∧
        splitLines text = line :: splitLines more := by
  by_cases h : '\n' ∈ text
  · obtain ⟨line, more, rfl, hline⟩ := List.eq_append_cons_of_mem h
    exact .inr ⟨line, more, rfl, hline, splitLines_append hline more⟩
  · refine .inl ⟨h, ?_⟩
    induction text with
    | nil => rfl
    | cons c text ih =>
      obtain ⟨hc, htext⟩ := not_or.1 (mt List.mem_cons.2 h)
      rw [splitLines_cons, if_neg (Ne.symm hc), ih htext]
      rfl

theorem exists_splitLines (text : List Char) :
    ∃ line more, splitLines text = line :: more := by
  rcases splitLines_cases text with ⟨-, h⟩ | ⟨line, more, -, -, h⟩
  · exact ⟨_, _, h⟩
  · exact ⟨_, _, h⟩

/-- What stands behind a line feed has its own lines. -/
theorem splitLines_append_feed (front back : List Char) :
    splitLines (front ++ '\n' :: back) = splitLines front ++ splitLines back := by
  induction front with
  | nil => rfl
  | cons c front ih =>
    obtain ⟨line, more, hlines⟩ := exists_splitLines front
    rw [List.cons_append, splitLines_cons, splitLines_cons, ih, hlines]
    split <;> rfl

/-- Only white space is left. -/
theorem firstInk?_eq_none_iff {lines : List (List Char)} {offset : Nat} :
    firstInk? offset lines = none ↔ ∀ line ∈ lines, line.dropWhile isSpace = [] := by
  induction lines generalizing offset with
  | nil => exact ⟨fun _ => nofun, fun _ => rfl⟩
  | cons line more ih =>
    rw [List.forall_mem_cons, firstInk?]
    cases hline : line.dropWhile isSpace with
    | nil => exact ih.trans (by simp)
    | cons c tail => simp

/-- What a line that is scanned may be: white space, the closing brace, or an operation. -/
inductive ScansLine (offset : Nat) (line : List Char) (more : List (List Char)) :
    List Line → Prop
  | space {found : List Line} (hline : line.dropWhile isSpace = [])
      (hmore : scanLines (offset + byteLength line + if more.isEmpty then 0 else 1) more =
        .ok found) : ScansLine offset line more found
  | brace {rest : List Char} (hline : line.dropWhile isSpace = '\x7d' :: rest)
      (hmore : ∀ line ∈ rest :: more, line.dropWhile isSpace = []) : ScansLine offset line more []
  | operation {c : Char} {tail rest : List Char} {first : Line} {found : List Line}
      (hline : line.dropWhile isSpace = c :: tail) (hbrace : c ≠ '\x7d')
      (hscan : Scanner.line (offset + (line.length - (c :: tail).length)) (c :: tail) =
        .ok (first, rest)) (hends : endsLine rest more.isEmpty = true)
      (hmore : scanLines (offset + byteLength line + if more.isEmpty then 0 else 1) more =
        .ok found) : ScansLine offset line more (first :: found)

/-- **How the first line is scanned.** -/
theorem scanLines_eq_ok {offset : Nat} {line : List Char} {more : List (List Char)}
    {found : List Line} :
    scanLines offset (line :: more) = .ok found ↔ ScansLine offset line more found := by
  constructor
  · intro h
    unfold scanLines at h
    dsimp only at h
    split at h
    · next hline => exact .space hline h
    · next rest hline =>
      split at h
      · next hnone =>
        cases h
        exact .brace hline (firstInk?_eq_none_iff.1 hnone)
      · cases h
    · next hnil hbrace =>
      split at h
      · cases h
      · next first rest hscan =>
        split at h
        · next hends =>
          obtain ⟨found, hmore, rfl⟩ := map_eq_ok.1 h
          cases hline : line.dropWhile isSpace with
          | nil => exact absurd hline hnil
          | cons c tail =>
            rw [hline] at hscan
            refine .operation hline (fun hc => hbrace tail (hc ▸ hline)) hscan hends hmore
        · cases h
  · intro h
    unfold scanLines
    cases h with
    | space hline hmore => simp only [hline, hmore]
    | brace hline hmore => simp only [hline, firstInk?_eq_none_iff.2 hmore]
    | @operation c tail rest first found hline hbrace hscan hends hmore =>
      simp only [hline]
      split
      · next heq => cases heq
      · next heq => exact absurd (List.cons.inj heq).1 hbrace
      · simp only [hscan, hends, hmore, if_true]
        rfl

/-! ## Fronts -/

/-- What stands behind the front is scanned apart from it, and the lines of the front come first. -/
def Passes (offset : Nat) (front : List Char) (done : List Line) : Prop :=
  ∀ rest, scanLines offset (splitLines (front ++ rest)) =
    (scanLines (offset + byteLength front) (splitLines rest)).map (done ++ ·)

theorem Passes.append {offset : Nat} {front front' : List Char} {done done' : List Line}
    (h : Passes offset front done) (h' : Passes (offset + byteLength front) front' done') :
    Passes offset (front ++ front') (done ++ done') := by
  intro rest
  rw [List.append_assoc, h, h', byteLength_append, Nat.add_assoc]
  cases scanLines (offset + (byteLength front + byteLength front')) (splitLines rest) with
  | error e => rfl
  | ok found => exact congrArg Except.ok (List.append_assoc done done' found).symm

theorem passes_nil (offset : Nat) : Passes offset [] [] := by
  intro rest
  show _ = (scanLines (offset + 0) (splitLines rest)).map id
  rw [Nat.add_zero, List.nil_append]
  cases scanLines offset (splitLines rest) <;> rfl

/-- White space in front of a line moves it. -/
theorem scanLines_space_cons {c : Char} (hc : isSpace c = true) (offset : Nat) (line : List Char)
    (more : List (List Char)) :
    scanLines offset ((c :: line) :: more) = scanLines (offset + 1) (line :: more) := by
  have hlength : byteLength (c :: line) = 1 + byteLength line := by
    rw [byteLength_cons, utf8Size_of_isSpace hc]
  have hstart : offset + ((c :: line).length - (line.dropWhile isSpace).length) =
      offset + 1 + (line.length - (line.dropWhile isSpace).length) := by
    have := (List.dropWhile_suffix (l := line) isSpace).length_le
    rw [List.length_cons]
    omega
  have hnext : offset + byteLength (c :: line) = offset + 1 + byteLength line := by
    rw [hlength, Nat.add_assoc]
  conv => lhs; unfold scanLines
  conv => rhs; unfold scanLines
  rw [List.dropWhile_cons_of_pos hc]
  simp only [hstart, hnext]

/-- **White space is a front without lines.** -/
theorem passes_space {offset : Nat} {gap : List Char} (h : ∀ c ∈ gap, isSpace c = true) :
    Passes offset gap [] := by
  induction gap generalizing offset with
  | nil => exact passes_nil offset
  | cons c gap ih =>
    obtain ⟨hc, hgap⟩ := List.forall_mem_cons.1 h
    have hfirst : Passes offset [c] [] := by
      intro rest
      show scanLines offset (splitLines (c :: rest)) =
        (scanLines (offset + byteLength [c]) (splitLines rest)).map id
      have hmap : ∀ found : Except ReadError (List Line), found.map id = found := by
        rintro (e | found) <;> rfl
      rw [hmap, byteLength_of_isSpace (by simpa using hc), splitLines_cons]
      obtain ⟨line, more, hlines⟩ := exists_splitLines rest
      split
      · rw [hlines]
        rfl
      · rw [hlines]
        exact scanLines_space_cons hc offset line more
    exact hfirst.append (ih hgap)

theorem passes_blankLine {offset : Nat} {line : List Char} (h : line.dropWhile isSpace = []) :
    Passes offset (line ++ ['\n']) [] := by
  refine passes_space fun c hc => ?_
  rcases List.mem_append.1 hc with hc | hc
  · exact List.dropWhile_eq_nil_iff.1 h c hc
  · obtain rfl := List.mem_singleton.1 hc
    rfl

/-- **A line with an operation is a front.** -/
theorem passes_line {offset : Nat} {line rest : List Char} {c : Char} {tail : List Char}
    {found : Line} (hline : '\n' ∉ line) (hdrop : line.dropWhile isSpace = c :: tail)
    (hbrace : c ≠ '\x7d')
    (hscan : Scanner.line (offset + (line.length - (c :: tail).length)) (c :: tail) =
      .ok (found, rest))
    (hends : endsLine rest false = true) : Passes offset (line ++ ['\n']) [found] := by
  intro text
  have hmore : (splitLines text).isEmpty = false := by
    obtain ⟨line', more, h⟩ := exists_splitLines text
    rw [h]
    rfl
  rw [List.append_assoc, List.singleton_append, splitLines_append hline]
  conv => lhs; unfold scanLines
  simp only [hdrop]
  split
  · next heq => cases heq
  · next heq => exact absurd (List.cons.inj heq).1 hbrace
  · have hnext : offset + byteLength line + 1 = offset + byteLength (line ++ ['\n']) := by
      rw [byteLength_append, Nat.add_assoc]
      rfl
    simp only [hscan, hmore, hends, if_true, Bool.false_eq_true, if_false, hnext]
    rfl

/-- A text whose lines are white space is white space. -/
theorem isSpace_of_splitLines {text : List Char}
    (h : ∀ line ∈ splitLines text, line.dropWhile isSpace = []) :
    ∀ c ∈ text, isSpace c = true := by
  induction text with
  | nil => exact nofun
  | cons c text ih =>
    obtain ⟨line, more, hlines⟩ := exists_splitLines text
    rw [splitLines_cons] at h
    split at h
    · next hc =>
      subst hc
      exact List.forall_mem_cons.2 ⟨rfl, ih (List.forall_mem_cons.1 h).2⟩
    · rw [hlines] at h
      obtain ⟨hline, hmore⟩ := List.forall_mem_cons.1 h
      obtain ⟨hc, hline⟩ := List.forall_mem_cons.1 (List.dropWhile_eq_nil_iff.1 hline)
      refine List.forall_mem_cons.2 ⟨hc, ih ?_⟩
      rw [hlines]
      exact List.forall_mem_cons.2 ⟨List.dropWhile_eq_nil_iff.2 hline, hmore⟩

theorem splitLines_of_isSpace {text : List Char} (h : ∀ c ∈ text, isSpace c = true) :
    ∀ line ∈ splitLines text, line.dropWhile isSpace = [] := by
  induction text with
  | nil => simp [splitLines]
  | cons c text ih =>
    obtain ⟨hc, htext⟩ := List.forall_mem_cons.1 h
    obtain ⟨line, more, hlines⟩ := exists_splitLines text
    have hall := ih htext
    rw [splitLines_cons]
    split
    · exact List.forall_mem_cons.2 ⟨rfl, hall⟩
    · rw [hlines] at hall ⊢
      obtain ⟨hline, hmore⟩ := List.forall_mem_cons.1 hall
      exact List.forall_mem_cons.2 ⟨(List.dropWhile_cons_of_pos hc).trans hline, hmore⟩

/-- A single line that is scanned holds no operation, because there is no brace behind it. -/
theorem ScansLine.last {offset : Nat} {line : List Char} {found : List Line}
    (h : ScansLine offset line [] found) :
    found = [] ∧ ∃ rest, line.dropWhile isSpace = '\x7d' :: rest ∧ rest.dropWhile isSpace = [] := by
  cases h with
  | space hline hmore => cases hmore
  | @brace rest hline hmore => exact ⟨rfl, rest, hline, hmore rest List.mem_cons_self⟩
  | operation hline hbrace hscan hends hmore => cases hmore

/-- White space may be cut off the front of a line. -/
theorem exists_gap {line : List Char} {c : Char} {tail : List Char}
    (h : line.dropWhile isSpace = c :: tail) :
    ∃ gap, line = gap ++ c :: tail ∧ (∀ d ∈ gap, isSpace d = true) ∧ isSpace c = false ∧
      ∀ offset, offset + (line.length - (c :: tail).length) = offset + byteLength gap := by
  have hsplit := List.takeWhile_append_dropWhile (p := isSpace) (l := line)
  have hspace : ∀ d ∈ line.takeWhile isSpace, isSpace d = true :=
    List.all_eq_true.1 List.all_takeWhile
  have hstop := stopsAt_dropWhile isSpace line
  rw [h] at hsplit hstop
  refine ⟨line.takeWhile isSpace, hsplit.symm, hspace, hstop c rfl, fun offset => ?_⟩
  have hlength := congrArg List.length hsplit
  rw [List.length_append] at hlength
  rw [byteLength_of_isSpace hspace, ← hlength, Nat.add_sub_cancel]

theorem isEmpty_splitLines (text : List Char) : (splitLines text).isEmpty = false := by
  obtain ⟨line, more, h⟩ := exists_splitLines text
  rw [h]
  rfl

/-- The front of a line that is scanned, with the line feed behind it. -/
theorem ScansLine.passes {offset : Nat} {line text : List Char} (hline : '\n' ∉ line)
    {found : List Line} (h : ScansLine offset line (splitLines text) found)
    (hbrace : ¬ ∀ c ∈ text, isSpace c = true) :
    ∃ here there, found = here ++ there ∧ Passes offset (line ++ ['\n']) here ∧
      scanLines (offset + byteLength (line ++ ['\n'])) (splitLines text) = .ok there := by
  have hnext : offset + byteLength line + (if (splitLines text).isEmpty then 0 else 1) =
      offset + byteLength (line ++ ['\n']) := by
    rw [isEmpty_splitLines, byteLength_append, Nat.add_assoc]
    rfl
  cases h with
  | space hdrop hmore =>
    rw [hnext] at hmore
    exact ⟨[], found, rfl, passes_blankLine hdrop, hmore⟩
  | brace hdrop hmore =>
    exact absurd (isSpace_of_splitLines (List.forall_mem_cons.1 hmore).2) hbrace
  | operation hdrop hne hscan hends hmore =>
    rw [hnext] at hmore
    rw [isEmpty_splitLines] at hends
    exact ⟨[_], _, rfl, passes_line hline hdrop hne hscan hends, hmore⟩

/-- **A text that a brace ends is a front.** -/
theorem passes_of_brace {offset : Nat} {front : List Char} {done : List Line}
    (h : scanLines offset (splitLines (front ++ ['\x7d'])) = .ok done) :
    Passes offset front done := by
  induction hn : front.length using Nat.strongRecOn generalizing offset front done with
  | ind n ih =>
    rcases splitLines_cases front with ⟨hfeed, -⟩ | ⟨line, more, rfl, hline, -⟩
    · have hlines : splitLines (front ++ ['\x7d']) = [front ++ ['\x7d']] := by
        rcases splitLines_cases (front ++ ['\x7d']) with ⟨-, h⟩ | ⟨line, more, heq, -, -⟩
        · exact h
        · have : '\n' ∈ front ++ ['\x7d'] := heq ▸ List.mem_append_right _ List.mem_cons_self
          rcases List.mem_append.1 this with h | h
          · exact absurd h hfeed
          · exact absurd (List.mem_singleton.1 h) (by decide)
      rw [hlines] at h
      obtain ⟨rfl, rest, hdrop, hrest⟩ := (scanLines_eq_ok.1 h).last
      obtain ⟨gap, hgap, hspace, -, -⟩ := exists_gap hdrop
      -- the brace that was found is the one at the end, as only white space is behind it
      have hfront : front = gap := by
        rcases List.eq_nil_or_concat rest with rfl | ⟨rest, d, rfl⟩
        · exact (List.append_inj_left' hgap rfl)
        · rw [List.concat_eq_append, ← List.cons_append, ← List.append_assoc] at hgap
          obtain ⟨-, hd⟩ := List.append_inj' hgap rfl
          cases hd
          exact absurd (List.dropWhile_eq_nil_iff.1 hrest '\x7d' (by simp)) (by decide)
      rw [hfront]
      exact passes_space hspace
    · rw [List.append_assoc, List.cons_append, splitLines_append hline] at h
      obtain ⟨here, there, rfl, hhere, hthere⟩ := (scanLines_eq_ok.1 h).passes hline fun hall =>
        absurd (hall '\x7d' (by simp)) (by decide)
      have hmore := ih more.length (by rw [← hn]; simp; omega) hthere rfl
      have := hhere.append hmore
      rwa [List.append_assoc, List.singleton_append] at this

/-! ## Cuts -/

theorem line_offset {offset : Nat} {text rest : List Char} {found : Line}
    (h : Scanner.line offset text = .ok (found, rest)) : found.offset = offset := by
  rw [line_eq] at h
  obtain ⟨front, middle, hfront, hback⟩ := Scanner.bind_eq_ok.1 h
  obtain ⟨ty?, middle', -, hpure⟩ := Scanner.bind_eq_ok.1 hback
  cases hpure
  unfold lineFront at hfront
  obtain ⟨result?, _, -, hfront⟩ := Scanner.bind_eq_ok.1 hfront
  obtain ⟨mnemonic, _, -, hfront⟩ := Scanner.bind_eq_ok.1 hfront
  obtain ⟨_, _, -, hfront⟩ := Scanner.bind_eq_ok.1 hfront
  obtain ⟨literal?, _, -, hfront⟩ := Scanner.bind_eq_ok.1 hfront
  obtain ⟨_, _, -, hfront⟩ := Scanner.bind_eq_ok.1 hfront
  obtain ⟨operands, _, -, hpure⟩ := Scanner.bind_eq_ok.1 hfront
  cases hpure
  rfl

/-- The text of an operation, without the line feed behind it: it begins with neither white space
nor a closing brace, and is scanned to its end as `found`. -/
structure IsOperation (offset : Nat) (text : List Char) (found : Line) : Prop where
  feed : '\n' ∉ text
  head : ∃ c tail, text = c :: tail ∧ isSpace c = false ∧ c ≠ '\x7d'
  scan : ∃ rest, Scanner.line offset text = .ok (found, rest) ∧ endsLine rest false = true

theorem IsOperation.offset_eq {offset : Nat} {text : List Char} {found : Line}
    (h : IsOperation offset text found) : found.offset = offset := by
  obtain ⟨rest, hscan, -⟩ := h.scan
  exact line_offset hscan

theorem IsOperation.passes {offset : Nat} {text : List Char} {found : Line}
    (h : IsOperation offset text found) : Passes offset (text ++ ['\n']) [found] := by
  obtain ⟨hfeed, ⟨c, tail, rfl, hspace, hbrace⟩, rest, hscan, hends⟩ := h
  refine passes_line hfeed (List.dropWhile_cons_of_neg (by simp [hspace])) hbrace ?_ hends
  rwa [Nat.sub_self]

/-- A line begins where the front ends, up to white space: in front of that is the opening brace or
a line feed. -/
def StartsLine (front : List Char) : Prop :=
  ∃ before c gap, front = before ++ c :: gap ∧ (c = '\x7b' ∨ c = '\n') ∧
    ∀ d ∈ gap, isSpace d = true

theorem startsLine_gap {gap : List Char} (h : ∀ d ∈ gap, isSpace d = true) :
    StartsLine ('\x7b' :: gap) :=
  ⟨[], '\x7b', gap, rfl, .inl rfl, h⟩

/-- Lines in front do not matter. -/
theorem StartsLine.prepend {front : List Char} (h : StartsLine ('\x7b' :: front))
    (line : List Char) : StartsLine ('\x7b' :: (line ++ ['\n'] ++ front)) := by
  obtain ⟨before, c, gap, hfront, hc, hgap⟩ := h
  cases before with
  | nil =>
    cases hfront
    exact ⟨'\x7b' :: line, '\n', front, by simp, .inr rfl, hgap⟩
  | cons d before =>
    cases hfront
    exact ⟨'\x7b' :: (line ++ ['\n'] ++ before), c, gap, by simp, hc, hgap⟩

theorem StartsLine.behind {front : List Char} (h : StartsLine ('\x7b' :: front))
    (header : List Char) : StartsLine (header ++ '\x7b' :: front) := by
  obtain ⟨before, c, gap, hfront, hc, hgap⟩ := h
  exact ⟨header ++ before, c, gap, by rw [hfront, List.append_assoc], hc, hgap⟩

/-- **Lines that are scanned can be cut in front of each operation.** -/
theorem exists_passes {offset : Nat} {text : List Char} {done todo : List Line} {line : Line}
    (h : scanLines offset (splitLines text) = .ok (done ++ line :: todo)) :
    ∃ front word back, text = front ++ (word ++ '\n' :: back) ∧ StartsLine ('\x7b' :: front) ∧
      IsOperation (offset + byteLength front) word line ∧ Passes offset front done := by
  induction hn : text.length using Nat.strongRecOn generalizing offset text done with
  | ind n ih =>
    rcases splitLines_cases text with ⟨-, hlines⟩ | ⟨first, more, rfl, hfeed, hlines⟩
    · rw [hlines] at h
      exact absurd (scanLines_eq_ok.1 h).last.1 (by simp)
    · -- the cut is in the first line, or in what is behind it
      have hrest : ∀ {here done' : List Line}, Passes offset (first ++ ['\n']) here →
          scanLines (offset + byteLength first + if (splitLines more).isEmpty then 0 else 1)
            (splitLines more) = .ok (done' ++ line :: todo) →
          ∃ front word back, first ++ '\n' :: more = front ++ (word ++ '\n' :: back) ∧
            StartsLine ('\x7b' :: front) ∧ IsOperation (offset + byteLength front) word line ∧
              Passes offset front (here ++ done') := by
        intro here done' hhere hmore
        have hnext : offset + byteLength first + (if (splitLines more).isEmpty then 0 else 1) =
            offset + byteLength (first ++ ['\n']) := by
          rw [isEmpty_splitLines, byteLength_append, Nat.add_assoc]
          rfl
        rw [hnext] at hmore
        obtain ⟨front, word, back, rfl, hstarts, hword, hpasses⟩ :=
          ih more.length (by rw [← hn]; simp; omega) hmore rfl
        refine ⟨first ++ ['\n'] ++ front, word, back, by simp, hstarts.prepend first, ?_,
          hhere.append hpasses⟩
        rwa [byteLength_append, ← Nat.add_assoc]
      rw [hlines] at h
      cases hdone : done ++ line :: todo with
      | nil => exact absurd hdone (by simp)
      | cons found tail =>
        rw [hdone] at h
        cases scanLines_eq_ok.1 h with
        | space hdrop hmore =>
          rw [← hdone] at hmore
          exact hrest (passes_blankLine hdrop) hmore
        | @operation c tail' rest _ _ hdrop hbrace hscan hends hmore =>
          rw [isEmpty_splitLines] at hends
          cases done with
          | nil =>
            cases hdone
            obtain ⟨gap, rfl, hspace, hc, hoffset⟩ := exists_gap hdrop
            rw [hoffset] at hscan
            refine ⟨gap, c :: tail', more, List.append_assoc .., startsLine_gap hspace,
              ⟨?_, ⟨c, tail', rfl, hc, hbrace⟩, rest, hscan, hends⟩, passes_space hspace⟩
            exact fun hin => hfeed (List.mem_append_right _ hin)
          | cons found' done =>
            cases hdone
            exact hrest (passes_line hfeed hdrop hbrace hscan hends) hmore

/-- Texts with this front have its header and its lines, and in addition the lines behind it. -/
def Opens (front : List Char) (header : Header) (done : List Line) : Prop :=
  ∀ rest, ofText (String.ofList (front ++ rest)) =
    (scanLines (byteLength front) (splitLines rest)).map fun lines => ⟨header, done ++ lines⟩

/-- A text is a header and lines. -/
theorem ofText_eq_ok_iff {text : List Char} {listing : Listing} :
    ofText (String.ofList text) = .ok listing ↔ ∃ rest,
      Scanner.header text = .ok (listing.header, rest) ∧
      scanLines (byteLength text - byteLength rest) (splitLines rest) = .ok listing.lines := by
  unfold ofText
  rw [String.toList_ofList]
  dsimp only
  constructor
  · intro h
    split at h
    · cases h
    · next header rest hheader =>
      obtain ⟨lines, hlines, rfl⟩ := map_eq_ok.1 h
      exact ⟨rest, hheader, hlines⟩
  · rintro ⟨rest, hheader, hlines⟩
    simp only [hheader, hlines]
    rfl

theorem ofText_eq_ok {text : List Char} {listing : Listing} :
    ofText (String.ofList text) = .ok listing ↔ ∃ front rest, text = front ++ '\x7b' :: rest ∧
      (∀ rest', Scanner.header (front ++ '\x7b' :: rest') = .ok (listing.header, rest')) ∧
      scanLines (byteLength (front ++ ['\x7b'])) (splitLines rest) = .ok listing.lines := by
  have hlength : ∀ front rest, byteLength (front ++ '\x7b' :: rest) - byteLength rest =
      byteLength (front ++ ['\x7b']) := by
    intro front rest
    rw [List.append_cons, byteLength_append (front ++ ['\x7b']), Nat.add_sub_cancel]
  rw [ofText_eq_ok_iff]
  constructor
  · rintro ⟨rest, hheader, hlines⟩
    obtain ⟨front, rfl, -, hfront⟩ := header_split hheader
    rw [hlength] at hlines
    exact ⟨front, rest, rfl, hfront, hlines⟩
  · rintro ⟨front, rest, rfl, hheader, hlines⟩
    rw [← hlength] at hlines
    exact ⟨rest, hheader rest, hlines⟩

/-- The header and a front of the lines behind it. -/
theorem opens_of_passes {front lines : List Char} {header : Header} {done : List Line}
    (hheader : ∀ rest, Scanner.header (front ++ '\x7b' :: rest) = .ok (header, rest))
    (hlines : Passes (byteLength (front ++ ['\x7b'])) lines done) :
    Opens (front ++ '\x7b' :: lines) header done := by
  intro rest
  unfold ofText
  rw [String.toList_ofList, List.append_assoc, List.cons_append]
  have hlength : byteLength (front ++ '\x7b' :: (lines ++ rest)) - byteLength (lines ++ rest) =
      byteLength (front ++ ['\x7b']) := by
    rw [List.append_cons, byteLength_append (front ++ ['\x7b']), Nat.add_sub_cancel]
  have hfront : byteLength (front ++ '\x7b' :: lines) =
      byteLength (front ++ ['\x7b']) + byteLength lines := by
    rw [List.append_cons, byteLength_append]
  simp only [hheader, hlength, hlines rest, hfront]
  cases scanLines (byteLength (front ++ ['\x7b']) + byteLength lines) (splitLines rest) <;> rfl

theorem Opens.append {front lines : List Char} {header : Header} {done more : List Line}
    (h : Opens front header done) (hlines : Passes (byteLength front) lines more) :
    Opens (front ++ lines) header (done ++ more) := by
  intro rest
  rw [List.append_assoc, h, hlines, byteLength_append]
  cases scanLines (byteLength front + byteLength lines) (splitLines rest) with
  | error e => rfl
  | ok found => simp [Except.map]

/-- With a closing brace behind it, a front is a text. -/
theorem Opens.close {front : List Char} {header : Header} {done : List Line}
    (h : Opens front header done) :
    ofText (String.ofList (front ++ ['\x7d'])) = .ok ⟨header, done⟩ := by
  have hbrace : scanLines (byteLength front) (splitLines ['\x7d']) = .ok [] :=
    scanLines_eq_ok.2 (.brace rfl (by simp))
  rw [h, hbrace, Except.map, List.append_nil]

/-- An operation that is not scanned is reported where it begins. -/
theorem Opens.unscanned {front word rest : List Char} {header : Header} {done : List Line}
    (h : Opens front header done) (hfeed : '\n' ∉ word)
    (hhead : ∃ c tail, word = c :: tail ∧ isSpace c = false ∧ c ≠ '\x7d')
    (hscan : Scanner.line (byteLength front) word = .error rest) (back : List Char) :
    ofText (String.ofList (front ++ (word ++ '\n' :: back))) =
      .error ⟨.operation, byteLength front⟩ := by
  obtain ⟨c, tail, rfl, hspace, hbrace⟩ := hhead
  have hdrop : (c :: tail).dropWhile isSpace = c :: tail :=
    List.dropWhile_cons_of_neg (by simp [hspace])
  rw [h, splitLines_append hfeed]
  conv => lhs; unfold scanLines
  simp only [hdrop, Nat.sub_self, Nat.add_zero]
  split
  · next heq => cases heq
  · next heq => exact absurd (List.cons.inj heq).1 hbrace
  · rw [hscan]
    rfl

/-- **What a closing brace makes a text is a front of other texts.** -/
theorem opens_of_brace {front : List Char} {header : Header} {done : List Line}
    (h : ofText (String.ofList (front ++ ['\x7d'])) = .ok ⟨header, done⟩) :
    Opens front header done := by
  obtain ⟨front₀, rest, htext, hheader, hlines⟩ := ofText_eq_ok.1 h
  rcases List.eq_nil_or_concat rest with rfl | ⟨lines, d, rfl⟩
  · obtain ⟨-, hd⟩ := List.append_inj' htext rfl
    cases hd
  · rw [List.concat_eq_append] at htext hlines
    rw [← List.cons_append, ← List.append_assoc] at htext
    obtain ⟨rfl, hd⟩ := List.append_inj' htext rfl
    cases hd
    exact opens_of_passes hheader (passes_of_brace hlines)

/-- **A listing can be cut in front of each of its lines.** -/
theorem exists_opens {text : List Char} {header : Header} {done todo : List Line} {line : Line}
    (h : ofText (String.ofList text) = .ok ⟨header, done ++ line :: todo⟩) :
    ∃ front word back, text = front ++ (word ++ '\n' :: back) ∧ StartsLine front ∧
      IsOperation (byteLength front) word line ∧ Opens front header done := by
  obtain ⟨front₀, rest, rfl, hheader, hlines⟩ := ofText_eq_ok.1 h
  obtain ⟨front, word, back, rfl, hstarts, hword, hpasses⟩ := exists_passes hlines
  refine ⟨front₀ ++ '\x7b' :: front, word, back, by simp, hstarts.behind front₀, ?_,
    opens_of_passes hheader hpasses⟩
  rwa [List.append_cons front₀, byteLength_append]

end Mba.Listing
