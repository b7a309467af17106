import Mathlib.Logic.Relation
import Mba.Proofs.Listing.Insulation
import Mba.Proofs.Listing.Layout

/-!
# Texts in other words

The names of values and the layout of a text carry no meaning. A text may be changed step by step:
values get other names, there is more or less white space, lines end in another way, and annotations
are left out. After every step it is still accepted, with a listing in other words, and is read as
the same program.

Results:
* `RewordsText.read`: texts in other words are read as the same program.
* `rewordsText_space`, `rewordsText_lineEnd`, `rewordsText_lineBreak`, `rewordsText_unannotated`:
  the changes of the layout.
* `Restyle.read`: one change.
* `Program.read_restyled`: any number of changes.
-/

namespace Mba

open Listing Store

namespace Listing

open Scanner Variation

variable {names : String → String → Prop} {text text' head lines front back : List Char}

/-! ## Headers and lines -/

/-- Whatever the first text is accepted as, the second one is accepted as too, in other words. -/
def RewordsText (names : String → String → Prop) (text text' : List Char) : Prop :=
  ∀ listing, ofText (String.ofList text) = .ok listing →
    ∃ listing', ofText (String.ofList text') = .ok listing' ∧ Reworded names listing listing'

theorem RewordsText.of_header (h : ∀ header rest, Scanner.header text = .ok (header, rest) →
      ∃ header' rest', Scanner.header text' = .ok (header', rest') ∧ header.Same names header' ∧
        RewordsLines names (splitLines rest) (splitLines rest')) :
    RewordsText names text text' := by
  intro listing hlisting
  obtain ⟨rest, hheader, hlines⟩ := ofText_eq_ok_iff.1 hlisting
  obtain ⟨header', rest', hheader', hsame, hrewords⟩ := h _ _ hheader
  obtain ⟨found', hlines', hfound⟩ := hrewords.scan _ _ hlines
    (byteLength text' - byteLength rest')
  exact ⟨⟨header', found'⟩, ofText_eq_ok_iff.2 ⟨rest', hheader', hlines'⟩, hsame, hfound⟩

/-- **Texts in other words are read as the same program.** -/
theorem RewordsText.read (hnames : Relator.BiUnique names) (h : RewordsText names text text')
    {s s' : Store} {p : Program} (hread : Program.read (String.ofList text) s = .done p s') :
    Program.read (String.ofList text') s = .done p s' := by
  obtain ⟨listing, _, hcheck, hassemble⟩ := Edit.bind_eq_done.1 hread
  obtain ⟨hlisting, rfl⟩ := check_done hcheck
  obtain ⟨listing', hlisting', hreworded⟩ := h listing hlisting
  obtain ⟨_, hassemble', rfl⟩ := hreworded.assemble hnames _ _ _ hassemble
  rw [Program.read_listing hlisting']
  exact hassemble'

theorem Header.Same.refl (header : Header) : header.Same Eq header :=
  ⟨rfl, List.forall₂_same.2 fun _ _ => ⟨rfl, rfl⟩⟩

/-- There is only one first brace. -/
theorem eq_of_first_brace {head' rest rest' : List Char}
    (h : head ++ '\x7b' :: rest = head' ++ '\x7b' :: rest') (hhead : '\x7b' ∉ head)
    (hhead' : '\x7b' ∉ head') : head = head' ∧ rest = rest' := by
  have htake : ∀ {head rest : List Char}, '\x7b' ∉ head →
      (head ++ '\x7b' :: rest).takeWhile (· ≠ '\x7b') = head := by
    intro head rest hhead
    have hall : ∀ c ∈ head, decide (c ≠ '\x7b') = true := fun c hc =>
      decide_eq_true fun heq => hhead (heq ▸ hc)
    rw [List.takeWhile_append_of_pos hall, List.takeWhile_cons_of_neg (by simp), List.append_nil]
  have heq := htake hhead ▸ h ▸ htake hhead'
  subst heq
  exact ⟨rfl, (List.cons.inj (List.append_cancel_left h)).2⟩

/-- Behind the header, lines are changed. -/
theorem RewordsText.of_lines (hhead : '\x7b' ∉ head) {rest rest' : List Char}
    (h : RewordsLines Eq (splitLines rest) (splitLines rest')) :
    RewordsText Eq (head ++ '\x7b' :: rest) (head ++ '\x7b' :: rest') := by
  refine .of_header fun header r hheader => ?_
  obtain ⟨head', hsplit, hhead', hany⟩ := header_split hheader
  obtain ⟨rfl, rfl⟩ := eq_of_first_brace hsplit hhead hhead'
  exact ⟨header, rest', hany rest', .refl header, h⟩

/-- **Names, and the blanks around marks**, may be others. -/
theorem RewordsText.of_related (h : (everywhere names).Related text text') :
    RewordsText names text text' := by
  refine .of_header fun header rest hheader => ?_
  obtain ⟨header', _, hfront', hsame, htight⟩ := (h.headerFront (sound_whole _ _)
    (soundSpace_whole _ _) (keeps_whole _ _ _) (keeps_whole _ _ _)).exists_ok
    (header_eq_ok.1 hheader)
  obtain ⟨rest', rfl, hrest⟩ := htight.related.exists_cons_of_whole rfl rfl (by decide)
  exact ⟨header', rest', header_eq_ok.2 hfront', hsame, .of_related hrest⟩

/-! ## Places in a text -/

/-- No line, or lines with a line feed behind each of them. -/
def IsLines (lines : List Char) : Prop :=
  lines = [] ∨ ∃ more, lines = more ++ ['\n']

theorem exists_isLines (text : List Char) :
    ∃ lines last, text = lines ++ last ∧ IsLines lines ∧ '\n' ∉ last := by
  induction text with
  | nil => exact ⟨[], [], rfl, .inl rfl, List.not_mem_nil⟩
  | cons c text ih =>
    obtain ⟨lines, last, rfl, rfl | ⟨more, rfl⟩, hlast⟩ := ih
    · by_cases hc : c = '\n'
      · subst hc
        exact ⟨['\n'], last, rfl, .inr ⟨[], rfl⟩, hlast⟩
      · refine ⟨[], c :: last, rfl, .inl rfl, fun hmem => ?_⟩
        exact (List.mem_cons.1 hmem).elim (fun heq => hc heq.symm) hlast
    · exact ⟨c :: (more ++ ['\n']), last, rfl, .inr ⟨c :: more, rfl⟩, hlast⟩

theorem IsLines.rewords (hlines : IsLines lines) {rest rest' : List Char}
    (h : RewordsLines Eq (splitLines rest) (splitLines rest')) :
    RewordsLines Eq (splitLines (lines ++ rest)) (splitLines (lines ++ rest')) := by
  rcases hlines with rfl | ⟨more, rfl⟩
  · exact h
  · rw [List.append_assoc, List.append_assoc, List.singleton_append, List.singleton_append,
      splitLines_append_feed, splitLines_append_feed]
    exact h.prepend (fun _ => rfl) _

/-- One line is changed. -/
theorem RewordsText.of_line (hhead : '\x7b' ∉ head) (hlines : IsLines lines) {line line' : List Char}
    (hfeed : '\n' ∉ line) (hfeed' : '\n' ∉ line') (h : RewordsLine Eq line line') :
    RewordsText Eq (head ++ '\x7b' :: (lines ++ (line ++ '\n' :: back)))
      (head ++ '\x7b' :: (lines ++ (line' ++ '\n' :: back))) := by
  refine .of_lines hhead (hlines.rewords ?_)
  rw [splitLines_append hfeed, splitLines_append hfeed']
  exact (RewordsLines.refl (fun _ => rfl) _).cons h

/-- A line begins where the front ends: it ends with the opening brace, or with a line feed behind
the brace. -/
def BeginsLine (front : List Char) : Prop :=
  ∃ head lines, front = head ++ '\x7b' :: lines ∧ '\x7b' ∉ head ∧ IsLines lines

/-! ## Changes of the layout -/

/-- **In front of a line** there may be other white space, and so there may be blank lines. -/
theorem rewordsText_space (hfront : BeginsLine front) {gap gap' : List Char}
    (hgap : ∀ c ∈ gap, isSpace c = true) (hgap' : ∀ c ∈ gap', isSpace c = true) :
    RewordsText Eq (front ++ (gap ++ back)) (front ++ (gap' ++ back)) := by
  obtain ⟨head, lines, rfl, hhead, hlines⟩ := hfront
  rw [List.append_assoc, List.append_assoc]
  exact .of_lines hhead (hlines.rewords (rewordsLines_space hgap hgap' back))

/-- **At the end of a line** there may be other blanks, and a carriage return or none. -/
theorem rewordsText_lineEnd (hbrace : '\x7b' ∈ front) (hfront : front.getLast? ≠ some '\r')
    {t t' : List Char} (ht : IsLineEnd t) (ht' : IsLineEnd t') :
    RewordsText Eq (front ++ (t ++ '\n' :: back)) (front ++ (t' ++ '\n' :: back)) := by
  obtain ⟨head, behind, rfl, hhead⟩ := List.eq_append_cons_of_mem hbrace
  obtain ⟨lines, last, rfl, hlines, hlast⟩ := exists_isLines behind
  have hreturn : last.getLast? ≠ some '\r' := by
    intro heq
    have hne : last ≠ [] := by
      rintro rfl
      cases heq
    rw [← List.cons_append, ← List.append_assoc, List.getLast?_append_of_ne_nil _ hne] at hfront
    exact hfront heq
  have hfeed : ∀ {t : List Char}, IsLineEnd t → '\n' ∉ last ++ t := fun ht hmem =>
    (List.mem_append.1 hmem).elim hlast ht.notMem_feed
  have h : RewordsText Eq (head ++ '\x7b' :: (lines ++ (last ++ t ++ '\n' :: back)))
      (head ++ '\x7b' :: (lines ++ (last ++ t' ++ '\n' :: back))) :=
    .of_line hhead hlines (hfeed ht) (hfeed ht') (rewordsLine_lineEnd hreturn ht ht')
  simpa using h

/-- Texts of which the second one has a carriage return in front of a line feed, and which are the
same up to an opening brace. -/
def Variation.carriageReturn (back rest : List Char) : Variation where
  names := Eq
  common c := c ≠ '\x7b'
  ends t t' := t = '\n' :: back ∧ t' = '\r' :: '\n' :: back ∨ t = '\x7b' :: rest ∧ t' = t

theorem sound_carriageReturn (back rest : List Char) : (carriageReturn back rest).Sound where
  solid := by
    rintro _ _ (⟨rfl, rfl⟩ | ⟨rfl, rfl⟩) <;> exact ⟨stopsAt_cons rfl _, stopsAt_cons rfl _⟩
  value := by
    rintro _ _ (⟨rfl, rfl⟩ | ⟨rfl, rfl⟩) <;> exact ⟨by simp, by simp⟩
  blank := by
    rintro _ _ (⟨rfl, rfl⟩ | ⟨rfl, rfl⟩)
    · exact .ends (.inl ⟨rfl, rfl⟩)
    · exact .ends (.inr ⟨rfl, rfl⟩)

theorem keeps_carriageReturn (back rest : List Char) {c : Char} (hc : isMark c = true) :
    (carriageReturn back rest).Keeps c := by
  have hne : ∀ {d : Char} {more : List Char}, isMark d = false → (d :: more).head? ≠ some c := by
    rintro d more hd ⟨⟩
    rw [hd] at hc
    cases hc
  rintro _ _ (⟨rfl, rfl⟩ | ⟨rfl, rfl⟩) <;> exact ⟨hne rfl, hne rfl⟩

theorem related_carriageReturn {back rest t t' : List Char} (hfront : '\x7b' ∉ front)
    (hends : (carriageReturn back rest).ends t t') :
    (carriageReturn back rest).Related (front ++ t) (front ++ t') := by
  obtain ⟨hstop, hstop'⟩ := (sound_carriageReturn _ _).solid _ _ hends
  exact .prepend (fun _ => rfl) (fun c hc heq => hfront (heq ▸ hc))
    (hstop.mono fun _ => isSolid_of_isNameChar) (hstop'.mono fun _ => isSolid_of_isNameChar)
    (.ends hends)

theorem soundSpace_carriageReturn {middle rest : List Char} (hmiddle : '\x7b' ∉ middle) :
    (carriageReturn (middle ++ '\x7b' :: rest) rest).SoundSpace := by
  rintro _ _ (⟨rfl, rfl⟩ | ⟨rfl, rfl⟩)
  · have hdrop : '\x7b' ∉ middle.dropWhile isSpace := fun hmem =>
      hmiddle ((List.dropWhile_suffix _).subset hmem)
    have hsame : (middle ++ '\x7b' :: rest).dropWhile isSpace =
        middle.dropWhile isSpace ++ '\x7b' :: rest := by
      rw [List.dropWhile_append]
      split
      · next hnil => rw [List.isEmpty_iff.1 hnil]; rfl
      · rfl
    show (carriageReturn _ _).Related ((middle ++ '\x7b' :: rest).dropWhile isSpace)
      ((middle ++ '\x7b' :: rest).dropWhile isSpace)
    rw [hsame]
    exact related_carriageReturn hdrop (.inr ⟨rfl, rfl⟩)
  · exact .ends (.inr ⟨rfl, rfl⟩)

/-- **At the end of a line of the header** there may be a carriage return. -/
theorem rewordsText_header (hfront : '\x7b' ∉ front) :
    RewordsText Eq (front ++ '\n' :: back) (front ++ '\r' :: '\n' :: back) := by
  refine .of_header fun header rest hheader => ?_
  obtain ⟨head, hsplit, hhead, -⟩ := header_split hheader
  -- the brace is behind the line feed
  obtain ⟨middle, rfl, hmiddle⟩ : ∃ middle, back = middle ++ '\x7b' :: rest ∧ '\x7b' ∉ middle := by
    have hmem : '\x7b' ∈ front ++ '\n' :: back := hsplit ▸ by simp
    have hback : '\x7b' ∈ back := by simpa [hfront] using hmem
    obtain ⟨middle, rest', rfl, hmiddle⟩ := List.eq_append_cons_of_mem hback
    rw [← List.cons_append, ← List.append_assoc] at hsplit
    obtain ⟨-, rfl⟩ := eq_of_first_brace hsplit (by simp [hfront, hmiddle]) hhead
    exact ⟨middle, rfl, hmiddle⟩
  have hrelated : (carriageReturn (middle ++ '\x7b' :: rest) rest).Related
      (front ++ '\n' :: (middle ++ '\x7b' :: rest))
      (front ++ '\r' :: '\n' :: (middle ++ '\x7b' :: rest)) :=
    related_carriageReturn hfront (.inl ⟨rfl, rfl⟩)
  obtain ⟨header', r', hfront', hsame, htight⟩ := (hrelated.headerFront (sound_carriageReturn _ _)
    (soundSpace_carriageReturn hmiddle) (keeps_carriageReturn _ _ rfl)
    (keeps_carriageReturn _ _ rfl)).exists_ok (header_eq_ok.1 hheader)
  have hcommon : ¬ (carriageReturn (middle ++ '\x7b' :: rest) rest).common '\x7b' := fun h => h rfl
  rcases htight.related.ends_of_brace hcommon with ⟨heq, -⟩ | ⟨-, rfl⟩
  · cases heq
  · exact ⟨header', rest, header_eq_ok.2 hfront', hsame, .refl (fun _ => rfl) _⟩

/-- **A line may end in a carriage return**, wherever it is. -/
theorem rewordsText_lineBreak (hfront : front.getLast? ≠ some '\r') :
    RewordsText Eq (front ++ '\n' :: back) (front ++ '\r' :: '\n' :: back) := by
  by_cases hbrace : '\x7b' ∈ front
  · have hreturn : IsLineEnd ['\r'] := ⟨[], ['\r'], rfl, isBlanks_nil, .inr rfl⟩
    have h : RewordsText Eq (front ++ ([] ++ '\n' :: back)) (front ++ (['\r'] ++ '\n' :: back)) :=
      rewordsText_lineEnd hbrace hfront isBlanks_nil.isLineEnd hreturn
    exact h
  · exact rewordsText_header hbrace

/-- **The annotation of a line** may be left out, unless the line is a constant. -/
theorem rewordsText_unannotated (hfront : BeginsLine front) {gap word label t : List Char}
    (hgap : ∀ c ∈ gap, isSpace c = true ∧ c ≠ '\n') {offset : Nat} {found : Line}
    (haccepts : Accepts offset (word ++ ':' :: label) found)
    (hmnemonic : found.mnemonic ≠ "const") (ht : IsLineEnd t) :
    RewordsText Eq (front ++ (gap ++ (word ++ ':' :: label) ++ '\n' :: back))
      (front ++ (gap ++ (word ++ t) ++ '\n' :: back)) := by
  obtain ⟨head, lines, rfl, hhead, hlines⟩ := hfront
  have hword : '\n' ∉ word ++ ':' :: label := fun hmem =>
    absurd (haccepts.mem _ hmem) (by decide)
  have hfeed : ∀ {text : List Char}, '\n' ∉ text → '\n' ∉ gap ++ text := fun htext hmem =>
    (List.mem_append.1 hmem).elim (fun hmem => (hgap _ hmem).2 rfl) htext
  have hfeed' : '\n' ∉ word ++ t := fun hmem => (List.mem_append.1 hmem).elim
    (fun hmem => hword (List.mem_append_left _ hmem)) ht.notMem_feed
  rw [List.append_assoc head, List.append_assoc head]
  exact .of_line hhead hlines (hfeed hword) (hfeed hfeed')
    (rewordsLine_unannotated (fun c hc => (hgap c hc).1) haccepts hmnemonic ht)

/-! ## Any number of changes -/

/-- One change of the names or the layout of a text. -/
inductive Restyle : List Char → List Char → Prop
  /-- Values have other names, one to one, and there are other blanks around the marks `=`, `,` and
  `:`. -/
  | words {names : String → String → Prop} {text text' : List Char}
      (hnames : Relator.BiUnique names) (h : (everywhere names).Related text text') :
      Restyle text text'
  /-- There is other white space where a line begins: blanks, and blank lines. -/
  | space {front gap gap' back : List Char} (hfront : BeginsLine front)
      (hgap : ∀ c ∈ gap, isSpace c = true) (hgap' : ∀ c ∈ gap', isSpace c = true) :
      Restyle (front ++ (gap ++ back)) (front ++ (gap' ++ back))
  /-- There are other blanks where a line ends behind the opening brace. -/
  | lineEnd {front t t' back : List Char} (hbrace : '\x7b' ∈ front)
      (hfront : front.getLast? ≠ some '\r') (ht : IsLineEnd t) (ht' : IsLineEnd t') :
      Restyle (front ++ (t ++ '\n' :: back)) (front ++ (t' ++ '\n' :: back))
  /-- There is a carriage return in front of a line feed, where there was none. -/
  | lineBreak {front back : List Char} (hfront : front.getLast? ≠ some '\r') :
      Restyle (front ++ '\n' :: back) (front ++ '\r' :: '\n' :: back)
  /-- The annotation of an operation that is not `const` is left out. -/
  | unannotate {front gap word label t back : List Char} (hfront : BeginsLine front)
      (hgap : ∀ c ∈ gap, isSpace c = true ∧ c ≠ '\n') {offset : Nat} {found : Line}
      (haccepts : Accepts offset (word ++ ':' :: label) found)
      (hmnemonic : found.mnemonic ≠ "const") (ht : IsLineEnd t) :
      Restyle (front ++ (gap ++ (word ++ ':' :: label) ++ '\n' :: back))
        (front ++ (gap ++ (word ++ t) ++ '\n' :: back))

/-- **One change** leaves the program as it is. -/
theorem Restyle.read (h : Restyle text text') {s s' : Store} {p : Program}
    (hread : Program.read (String.ofList text) s = .done p s') :
    Program.read (String.ofList text') s = .done p s' := by
  have heq : Relator.BiUnique (Eq : String → String → Prop) :=
    ⟨fun _ _ _ h h' => h.trans h'.symm, fun _ _ _ h h' => h.symm.trans h'⟩
  cases h with
  | words hnames h => exact (RewordsText.of_related h).read hnames hread
  | space hfront hgap hgap' => exact (rewordsText_space hfront hgap hgap').read heq hread
  | lineEnd hbrace hfront ht ht' =>
    exact (rewordsText_lineEnd hbrace hfront ht ht').read heq hread
  | lineBreak hfront => exact (rewordsText_lineBreak hfront).read heq hread
  | unannotate hfront hgap haccepts hmnemonic ht =>
    exact (rewordsText_unannotated hfront hgap haccepts hmnemonic ht).read heq hread

/-- **Any number of changes** leaves the program as it is. -/
theorem Restyle.read_many (h : Relation.ReflTransGen Restyle text text') {s s' : Store} {p : Program}
    (hread : Program.read (String.ofList text) s = .done p s') :
    Program.read (String.ofList text') s = .done p s' := by
  induction h with
  | refl => exact hread
  | tail _ hstep ih => exact hstep.read ih

end Listing

/-- **Names and layout carry no meaning.** A text that comes from a text that is read, by any number
of changes of names and layout, is read as the same program. It is also read into the empty store,
and the program there has the same text. -/
theorem Program.read_restyled {s₀ s : Store} {p : Program} (hs₀ : s₀.Reachable) {text text' : String}
    (hrestyle : Relation.ReflTransGen Restyle text.toList text'.toList)
    (hread : Program.read text s₀ = .done p s) :
    Program.read text' s₀ = .done p s ∧ ∃ q t printed, Program.read text' empty = .done q t ∧
      q.print t = .ok printed ∧ p.print s = .ok printed := by
  have hread' : Program.read text' s₀ = .done p s := by
    rw [← String.ofList_toList (s := text)] at hread
    rw [← String.ofList_toList (s := text')]
    exact Restyle.read_many hrestyle hread
  refine ⟨hread', ?_⟩
  have halike := Program.read_alike hs₀.consistent text'
  rw [hread'] at halike
  generalize hempty : Program.read text' empty = outcome at halike
  cases halike with
  | @done q _ t _ hjoined hp =>
    subst hp
    obtain ⟨-, ⟨done, hbuilt⟩, -⟩ := Program.read_done consistent_empty hempty
    obtain ⟨-, ⟨done', hbuilt'⟩, -⟩ := Program.read_done hs₀.consistent hread'
    obtain ⟨printed, hq, hp⟩ := hjoined.print_eq hbuilt.consistent.owned hbuilt'.consistent.owned
      hbuilt.listed hbuilt.flow
    exact ⟨q, t, printed, rfl, hq, hp⟩

/-- A text, and the same program in other names and another layout. -/
def notText : String :=
  "program @not(%a: i8) \x7b
  %b = not %a : i8
  return %b
\x7d
"

def restyledText : String :=
  "program @not(%x :i8) \x7b\r

%0=not %x\x20
  return %0
\x7d
"

theorem related_notText {names : String → String → Prop} (ha : names "a" "x")
    (hb : names "b" "0") : (Variation.everywhere names).Related notText.toList
      "program @not(%x :i8) \x7b\n  %0=not %x : i8\n  return %0\n\x7d\n".toList := by
  have hplain : notText.toList = "program @not(".toList ++ '%' :: (['a'] ++
      ([] ++ ':' :: ([' '] ++ ("i8) \x7b\n  ".toList ++ '%' :: (['b'] ++
      ([' '] ++ '=' :: ([' '] ++ ("not ".toList ++ '%' :: (['a'] ++
      ([' '] ++ ':' :: ([' '] ++ ("i8\n  return ".toList ++ '%' :: (['b'] ++
      ("\n\x7d\n".toList ++ [])))))))))))))) := by decide +kernel
  have hrenamed : "program @not(%x :i8) \x7b\n  %0=not %x : i8\n  return %0\n\x7d\n".toList =
      "program @not(".toList ++ '%' :: (['x'] ++
      ([' '] ++ ':' :: ([] ++ ("i8) \x7b\n  ".toList ++ '%' :: (['0'] ++
      ([] ++ '=' :: ([] ++ ("not ".toList ++ '%' :: (['x'] ++
      ([' '] ++ ':' :: ([' '] ++ ("i8\n  return ".toList ++ '%' :: (['0'] ++
      ("\n\x7d\n".toList ++ [])))))))))))))) := by decide +kernel
  have hx : (Variation.everywhere names).SameName ['a'] ['x'] := .inr ⟨rfl, rfl, ha⟩
  have h0 : (Variation.everywhere names).SameName ['b'] ['0'] := .inr ⟨rfl, rfl, hb⟩
  have hblank : IsBlanks [' '] := by simp [IsBlanks, Scanner.isBlank]
  rw [hplain, hrenamed]
  refine .prepend_plain rfl (.value hx (stopsAt_cons rfl _) (stopsAt_cons rfl _) ?_)
  refine .mark rfl isBlanks_nil hblank hblank isBlanks_nil ?_
  refine .prepend_plain rfl (.value h0 (stopsAt_cons rfl _) (stopsAt_cons rfl _) ?_)
  refine .mark rfl hblank hblank isBlanks_nil isBlanks_nil ?_
  refine .prepend_plain rfl (.value hx (stopsAt_cons rfl _) (stopsAt_cons rfl _) ?_)
  refine .mark rfl hblank hblank hblank hblank ?_
  refine .prepend_plain rfl (.value h0 (stopsAt_cons rfl _) (stopsAt_cons rfl _) ?_)
  exact .prepend_plain rfl (.ends ⟨rfl, rfl⟩)

theorem restyle_notText : Relation.ReflTransGen Restyle notText.toList restyledText.toList := by
  let names : String → String → Prop := fun name name' =>
    name = "a" ∧ name' = "x" ∨ name = "b" ∧ name' = "0"
  have hnames : Relator.BiUnique names := by
    constructor <;> intro a b c h h' <;> grind
  have hwords := Restyle.words hnames (related_notText (.inl ⟨rfl, rfl⟩) (.inr ⟨rfl, rfl⟩))
  have hfirst : "program @not(%x :i8) \x7b\n  %0=not %x : i8\n  return %0\n\x7d\n".toList =
      "program @not(%x :i8) \x7b".toList ++ '\n' :: ' ' :: ' ' :: ("%0=not %x ".toList ++
        ':' :: (" i8".toList ++ '\n' :: "  return %0\n\x7d\n".toList)) := by decide +kernel
  have hlast : restyledText.toList = "program @not(%x :i8) \x7b".toList ++ '\r' :: '\n' :: '\n' ::
      ("%0=not %x ".toList ++ '\n' :: "  return %0\n\x7d\n".toList) := by decide +kernel
  have hbrace : "program @not(%x :i8) \x7b".toList = "program @not(%x :i8) ".toList ++ ['\x7b'] := by
    decide +kernel
  have hline : ∀ {lines : List Char}, IsLines lines →
      BeginsLine ("program @not(%x :i8) \x7b".toList ++ lines) := by
    intro lines hlines
    rw [hbrace, List.append_assoc]
    exact ⟨_, lines, rfl, by decide, hlines⟩
  have hreturn : "program @not(%x :i8) \x7b".toList.getLast? ≠ some '\r' := by decide
  have hfound : Accepts 0 ("%0=not %x ".toList ++ ':' :: " i8".toList)
      ⟨0, some "0", "not", none, ["x"], some "i8"⟩ := ⟨[], rfl, rfl⟩
  rw [hfirst] at hwords
  rw [hlast]
  clear hbrace
  generalize "program @not(%x :i8) \x7b".toList = front at *
  generalize "%0=not %x ".toList = word at *
  generalize " i8".toList = label at *
  generalize "  return %0\n\x7d\n".toList = back at *
  have hspace : Restyle
      (front ++ ['\n'] ++ ([' ', ' '] ++ (word ++ ':' :: (label ++ '\n' :: back))))
      (front ++ ['\n'] ++ (['\n'] ++ (word ++ ':' :: (label ++ '\n' :: back)))) :=
    .space (hline (.inr ⟨[], rfl⟩)) (List.all_eq_true.1 rfl) (List.all_eq_true.1 rfl)
  have hlabel : Restyle
      (front ++ ['\n', '\n'] ++ ([] ++ (word ++ ':' :: label) ++ '\n' :: back))
      (front ++ ['\n', '\n'] ++ ([] ++ (word ++ []) ++ '\n' :: back)) :=
    .unannotate (hline (.inr ⟨['\n'], rfl⟩)) nofun hfound (by decide) isBlanks_nil.isLineEnd
  have hlineBreak : Restyle (front ++ '\n' :: '\n' :: (word ++ '\n' :: back))
      (front ++ '\r' :: '\n' :: '\n' :: (word ++ '\n' :: back)) := .lineBreak hreturn
  simp only [List.append_assoc, List.cons_append, List.nil_append] at hspace
  simp only [List.append_assoc, List.cons_append, List.nil_append] at hlabel
  exact .tail (.tail (.tail (.single hwords) hspace) hlabel) hlineBreak

theorem Program.read_restyled_not : ∃ p s q t printed, Program.read notText empty = .done p s ∧
    Program.read restyledText empty = .done q t ∧ q.print t = .ok printed ∧
      p.print s = .ok printed := by
  have hdone : (Program.read notText empty).done?.isSome = true := by decide +kernel
  obtain ⟨⟨p, s⟩, hdone⟩ := Option.isSome_iff_exists.1 hdone
  have hread := Outcome.done?_eq_some_iff.1 hdone
  obtain ⟨-, q, t, printed, hread', hq, hp⟩ :=
    Program.read_restyled .empty restyle_notText hread
  exact ⟨p, s, q, t, printed, hread, hread', hq, hp⟩

end Mba
