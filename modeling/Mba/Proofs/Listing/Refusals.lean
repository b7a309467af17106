import Mba.Proofs.Listing.Insulation
import Mba.Proofs.Listing.Prefixes

/-!
# Where texts are refused

A text that can be taken apart is built line by line, and refused at the first line that cannot be
built. The error says where that line begins. It depends on the text up to the end of that line
only, and the text before the line is a program without the line and what is behind it.

Results:
* `Header.create_failsAt`, `Line.assemble_failsAt`: errors are where the header or the line is.
* `namesAfter_failed`: the first line that cannot be built.
* `Program.read_refused`: a text that is refused at a line, and the texts that begin like it.
-/

namespace Mba

open Listing Store

namespace Listing

variable {α β : Type} {s s' : Store} {p : Program} {names : Names} {offset : Nat}

/-! ## The places of errors -/

/-- All errors of the edit are at the given offset. -/
def FailsAt (offset : Nat) (m : Edit Store ReadError α) : Prop :=
  ∀ s e s', m s = .failed e s' → e.offset = offset

namespace FailsAt

variable {m : Edit Store ReadError α}

theorem bind {next : α → Edit Store ReadError β} (hm : FailsAt offset m)
    (hnext : ∀ a, FailsAt offset (next a)) : FailsAt offset (m >>= next) := by
  intro s e s' h
  rcases Edit.bind_eq_failed.1 h with h | ⟨a, t, -, h⟩
  · exact hm s e s' h
  · exact hnext a t e s' h

theorem pure (a : α) : FailsAt offset (pure a : Edit Store ReadError α) := by
  rintro s e s' ⟨⟩

theorem update (change : Store → α × Store) :
    FailsAt offset (Edit.update change : Edit Store ReadError α) := by
  rintro s e s' ⟨⟩

theorem read_ok (query : Store → α) :
    FailsAt offset (Edit.read fun s => .ok (query s) : Edit Store ReadError α) := by
  rintro s e s' ⟨⟩

theorem fail (defect : Defect) :
    FailsAt offset (Edit.fail ⟨defect, offset⟩ : Edit Store ReadError α) := by
  rintro s _ s' ⟨⟩
  rfl

theorem check {result : Except ReadError α} (h : ∀ e, result = .error e → e.offset = offset) :
    FailsAt offset (check result) := by
  intro s e s' hcheck
  cases result with
  | ok a => cases hcheck
  | error e' =>
    cases hcheck
    exact h _ rfl

/-- Errors of builders are reported at the place of the line. -/
theorem call (p : Program) (calls : Edit Builder BuildError α) :
    FailsAt offset (call p offset calls) := by
  intro s e s' h
  rcases Edit.bind_eq_failed.1 h with h | ⟨_, _, -, h⟩
  · unfold Edit.mapError at h
    split at h
    · cases h
    · cases h
      rfl
    · cases h
  · cases h

/-- Asking for the type of a value makes no errors. -/
theorem valueTy (v : ValueId) :
    FailsAt offset (Edit.read fun s => s.valueTy v : Edit Store ReadError Ty) := by
  intro s e s' h
  unfold Edit.read at h
  dsimp only at h
  generalize s.valueTy v = found at h
  cases found <;> cases h

end FailsAt

theorem readTy_offset {name : String} {e : ReadError} (h : readTy name offset = .error e) :
    e.offset = offset := by
  unfold readTy at h
  split at h
  · cases h
  · cases h
    rfl

/-- Errors of a header are at the beginning of the text. -/
theorem Header.create_failsAt (header : Header) : FailsAt 0 header.create := by
  unfold Header.create
  refine (FailsAt.check fun e h => ?_).bind fun tys => ?_
  · obtain ⟨param, -, hparam⟩ := exists_of_mapM_eq_error h
    exact readTy_offset hparam
  refine (FailsAt.update _).bind fun p => (FailsAt.read_ok _).bind fun inputs => ?_
  refine (FailsAt.check fun e h => ?_).bind fun names => .pure _
  generalize (header.params.map (·.1)).zip inputs = params at h
  generalize ([] : Names) = names at h
  induction params generalizing names with
  | nil => cases h
  | cons param rest ih =>
    obtain ⟨name, v⟩ := param
    unfold nameParams at h
    split at h
    · cases h
      rfl
    · exact ih _ h

/-- What a line cannot ask for is wrong with the line. -/
theorem Line.offset_of_order {line : Line} {operands : List ValueId} {annotated? : Option Ty}
    {e : ReadError} (h : line.order operands annotated? = .error e) : e.offset = line.offset := by
  have hcount : ∀ e, line.expectOperands 0 = .error e → e.offset = line.offset := by
    intro e h
    unfold Line.expectOperands at h
    split at h <;> cases h
    rfl
  have hconstant : ∀ value e, line.constantTy value annotated? = .error e →
      e.offset = line.offset := by
    intro value e h
    unfold Line.constantTy at h
    split at h
    · cases h
      rfl
    · split at h <;> cases h
      rfl
  unfold Line.order at h
  split at h
  case h_3 =>
    rcases bind_eq_error.1 h with h | ⟨_, -, h⟩
    · exact hcount e h
    · rcases bind_eq_error.1 h with h | ⟨_, -, h⟩
      · exact hconstant _ e h
      · cases h
  case h_4 =>
    rcases bind_eq_error.1 h with h | ⟨_, -, h⟩
    · exact hcount e h
    · cases h
  all_goals
    cases h
    try rfl

theorem Line.emit_failsAt (line : Line) (p : Program) (operands : List ValueId)
    (annotated? : Option Ty) : FailsAt line.offset (line.emit p operands annotated?) := by
  rw [line.emit_eq]
  exact (FailsAt.check fun _ h => Line.offset_of_order h).bind fun _ => FailsAt.call p _

theorem Line.bindResult_failsAt (line : Line) (names : Names) (annotated? : Option Ty)
    (v? : Option ValueId) : FailsAt line.offset (line.bindResult names annotated? v?) := by
  unfold Line.bindResult
  split
  · split
    · exact .pure _
    · exact .fail _
  · split
    · exact .fail _
    · refine (FailsAt.valueTy _).bind fun ty => ?_
      split
      · exact .fail _
      · split
        · exact .fail _
        · exact .pure _

/-- **Errors of a line are where the line begins.** -/
theorem Line.assemble_failsAt (line : Line) (p : Program) (names : Names) :
    FailsAt line.offset (line.assemble p names) := by
  unfold Line.assemble
  refine (FailsAt.check fun e h => ?_).bind fun operands =>
    (FailsAt.check fun e h => ?_).bind fun annotated? =>
      (line.emit_failsAt p operands annotated?).bind fun v? =>
        line.bindResult_failsAt names annotated? v?
  · obtain ⟨name, -, hname⟩ := exists_of_mapM_eq_error h
    unfold Names.resolve at hname
    split at hname
    · cases hname
    · cases hname
      rfl
  · cases hty : line.ty? with
    | none =>
      rw [hty] at h
      cases h
    | some name =>
      rw [hty] at h
      cases hname : readTy name line.offset with
      | ok ty =>
        rw [Option.mapM_some, hname] at h
        cases h
      | error e' =>
        rw [Option.mapM_some, hname] at h
        cases h
        exact readTy_offset hname

/-! ## The first line that cannot be built -/

/-- **Lines that cannot be built** have a first one that cannot. Whatever is behind it, the lines
are refused with its error. -/
theorem namesAfter_failed {lines : List Line} {e : ReadError}
    (h : namesAfter p lines names s = .failed e s') :
    ∃ done line todo, lines = done ++ line :: todo ∧ e.offset = line.offset ∧
      (∃ names' t, namesAfter p done names s = .done names' t) ∧
      ∀ more, namesAfter p (done ++ line :: more) names s = .failed e s' := by
  induction lines generalizing names s with
  | nil => cases h
  | cons line rest ih =>
    rw [namesAfter, List.foldlM_cons] at h
    rcases Edit.bind_eq_failed.1 h with hline | ⟨names₁, s₁, hline, hrest⟩
    · refine ⟨[], line, rest, rfl, line.assemble_failsAt p names s e s' hline, ⟨names, s, rfl⟩,
        fun more => ?_⟩
      rw [List.nil_append, namesAfter, List.foldlM_cons]
      exact Edit.bind_failed hline
    · obtain ⟨done, line', todo, rfl, hoffset, ⟨names', t, hdone⟩, hmore⟩ := ih hrest
      refine ⟨line :: done, line', todo, rfl, hoffset, ⟨names', t, ?_⟩, fun more => ?_⟩
      · rw [namesAfter, List.foldlM_cons]
        exact Edit.bind_eq_done.2 ⟨names₁, s₁, hline, hdone⟩
      · rw [List.cons_append, namesAfter, List.foldlM_cons]
        exact Edit.bind_eq_failed.2 (.inr ⟨names₁, s₁, hline, hmore more⟩)

/-- A listing that is refused behind its header is so at its first line that cannot be built. -/
theorem assemble_refused {listing : Listing} {e : ReadError} (h : listing.assemble s = .failed e s')
    (he : 0 < e.offset) :
    ∃ done line todo, listing.lines = done ++ line :: todo ∧ e.offset = line.offset ∧
      (∃ p t, assemble ⟨listing.header, done⟩ s = .done p t) ∧
      ∀ more, assemble ⟨listing.header, done ++ line :: more⟩ s = .failed e s' := by
  rcases assemble_eq_failed.1 h with hcreate | ⟨p, names, s₁, hcreate, hlines⟩
  · exact absurd (listing.header.create_failsAt s e s' hcreate) (Nat.ne_of_gt he)
  · obtain ⟨done, line, todo, heq, hoffset, ⟨names', t, hdone⟩, hmore⟩ := namesAfter_failed hlines
    exact ⟨done, line, todo, heq, hoffset,
      ⟨p, t, assemble_eq_done.2 ⟨names, names', s₁, hcreate, hdone⟩⟩,
      fun more => assemble_eq_failed.2 (.inr ⟨p, names, s₁, hcreate, hmore more⟩)⟩

theorem utf8ByteSize_ofList (text : List Char) :
    (String.ofList text).utf8ByteSize = byteLength text := by
  induction text with
  | nil => rfl
  | cons c text ih =>
    rw [String.ofList_cons, String.utf8ByteSize_append, ih, byteLength_cons,
      String.utf8ByteSize_singleton]

end Listing

/-- **A text is refused at its first line that cannot be built.** Let a text that can be taken apart
be refused with an error behind the beginning of the text. Then the offset of the error is where the
text `word` of an operation begins, the text in front of it is read with a closing brace behind it,
and every text that goes on with anything else behind the line is refused with the same error, if it
can be taken apart. -/
theorem Program.read_refused {s₀ s : Store} (hs₀ : s₀.Reachable) {text : String} {listing : Listing}
    {e : ReadError} (htext : Listing.ofText text = .ok listing)
    (hread : Program.read text s₀ = .failed e s) (he : 0 < e.offset) :
    ∃ front word back : List Char, text = String.ofList (front ++ (word ++ '\n' :: back)) ∧
      StartsLine front ∧ (String.ofList front).utf8ByteSize = e.offset ∧
      (∃ line ∈ listing.lines, IsOperation e.offset word line) ∧
      ∀ s₁ : Store, s₁.Reachable →
        (∃ p s', Program.read (String.ofList (front ++ ['\x7d'])) s₁ = .done p s') ∧
        ∀ back' listing',
          Listing.ofText (String.ofList (front ++ (word ++ '\n' :: back'))) = .ok listing' →
          ∃ s', Program.read (String.ofList (front ++ (word ++ '\n' :: back'))) s₁ =
            .failed e s' := by
  obtain ⟨header, lines⟩ := listing
  rw [Program.read_listing htext] at hread
  obtain ⟨done, line, todo, heq, hoffset, ⟨p, t, hdone⟩, hmore⟩ := assemble_refused hread he
  cases heq
  rw [← String.ofList_toList (s := text)] at htext ⊢
  obtain ⟨front, word, back, heq, hstarts, hword, hopens⟩ := exists_opens htext
  have hfront : byteLength front = e.offset := by rw [hoffset, hword.offset_eq]
  refine ⟨front, word, back, by rw [heq], hstarts, by rw [utf8ByteSize_ofList, hfront],
    ⟨line, by simp, hfront ▸ hword⟩, fun s₁ hs₁ => ⟨?_, fun back' listing' htext' => ?_⟩⟩
  · have hclosed : Program.read (String.ofList (front ++ ['\x7d'])) s₀ = .done p t := by
      rw [Program.read_listing hopens.close, hdone]
    exact Program.read_everywhere hs₀.consistent hs₁.consistent hclosed
  · -- the other text has the same lines up to the one that is refused
    have hlines := hopens.append hword.passes back'
    rw [List.append_assoc, List.append_assoc, List.singleton_append, htext'] at hlines
    obtain ⟨more, -, hlisting⟩ := map_eq_ok.1 hlines.symm
    have hrefused : Program.read (String.ofList (front ++ (word ++ '\n' :: back'))) s₀ =
        .failed e s := by
      rw [Program.read_listing htext', ← hlisting, List.append_assoc, List.singleton_append,
        hmore more]
    exact Program.refused_everywhere hs₀.consistent hs₁.consistent hrefused

/-- The text of a program that names a value which is not there. -/
def lostText : String :=
  "program @lost(%a: i8) \x7b
  %b = add %a, %a
  %c = xor %b, %d
  return %c
\x7d
"

theorem Program.read_refused_lost :
    ∃ front word back : List Char, lostText = String.ofList (front ++ (word ++ '\n' :: back)) ∧
      (String.ofList front).utf8ByteSize = 44 ∧
      (∃ p s, Program.read (String.ofList (front ++ ['\x7d'])) empty = .done p s) ∧
      ∀ back' listing',
        Listing.ofText (String.ofList (front ++ (word ++ '\n' :: back'))) = .ok listing' →
        ∃ s, Program.read (String.ofList (front ++ (word ++ '\n' :: back'))) empty =
          .failed ⟨.undefinedValue "d", 44⟩ s := by
  have hfound : (Listing.ofText lostText).toOption.isSome = true := by decide +kernel
  have hanswer : (Program.read lostText empty).answer =
      .error (.error ⟨.undefinedValue "d", 44⟩) := by decide +kernel
  obtain ⟨s, hread⟩ := Outcome.answer_eq_error_iff.1 hanswer
  cases htext : Listing.ofText lostText with
  | error e =>
    rw [htext] at hfound
    cases hfound
  | ok listing =>
    obtain ⟨front, word, back, heq, -, hoffset, -, hall⟩ :=
      Program.read_refused .empty htext hread (by decide)
    exact ⟨front, word, back, heq, hoffset, hall empty .empty⟩

end Mba
