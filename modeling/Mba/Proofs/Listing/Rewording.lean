import Mathlib.Logic.Relator
import Mba.Proofs.Listing.Stages
import Mba.Proofs.Listing.Variants

/-!
# Listings in other words

A listing is *reworded* by giving other names to the values, one to one, and by leaving annotations
out. Names only say which values are meant, and the type of a result is known without being said, so
what is built from a reworded listing is what is built from the listing itself: the same program, in
the same store. Only an integer constant takes its type from its line, and keeps its annotation.

Results:
* `Repeats`: edits that are done where others are, with the same changes.
* `Table.lookup_eq`: corresponding names stand for the same values.
* `Line.Reworded.asks`, `Line.Reworded.binds`, `Line.Reworded.assemble`: lines in other words.
* `Header.Same.create`: headers with other names.
* `Reworded.assemble`: listings in other words.
-/

namespace Mba

open Listing Store

namespace Listing

variable {α β γ δ : Type} {p : Program} {names : String → String → Prop}

/-! ## Edits that repeat others -/

/-- Where the first edit is done, the second one is done with a corresponding answer, and makes the
same changes. -/
def Repeats (answers : α → β → Prop) (m : Edit Store ReadError α) (m' : Edit Store ReadError β) :
    Prop :=
  ∀ s a s', m s = .done a s' → ∃ b, m' s = .done b s' ∧ answers a b

namespace Repeats

variable {answers : α → β → Prop} {answers' : γ → δ → Prop} {m : Edit Store ReadError α}
  {m' : Edit Store ReadError β}

theorem bind {next : α → Edit Store ReadError γ} {next' : β → Edit Store ReadError δ}
    (h : Repeats answers m m') (hnext : ∀ a b, answers a b → Repeats answers' (next a) (next' b)) :
    Repeats answers' (m >>= next) (m' >>= next') := by
  intro s c s' hdone
  obtain ⟨a, s₁, hfirst, hsecond⟩ := Edit.bind_eq_done.1 hdone
  obtain ⟨b, hfirst', hanswers⟩ := h s a s₁ hfirst
  obtain ⟨d, hsecond', hanswers'⟩ := hnext a b hanswers s₁ c s' hsecond
  exact ⟨d, Edit.bind_eq_done.2 ⟨b, s₁, hfirst', hsecond'⟩, hanswers'⟩

theorem refl (m : Edit Store ReadError α) : Repeats Eq m m :=
  fun _ a _ h => ⟨a, h, rfl⟩

theorem pure {a : α} {b : β} (h : answers a b) :
    Repeats answers (pure a : Edit Store ReadError α) (pure b : Edit Store ReadError β) := by
  rintro s _ s' ⟨⟩
  exact ⟨b, rfl, h⟩

theorem check {result : Except ReadError α} {result' : Except ReadError β}
    (h : ∀ a, result = .ok a → ∃ b, result' = .ok b ∧ answers a b) :
    Repeats answers (check result) (check result') := by
  intro s a s' hcheck
  obtain ⟨hresult, rfl⟩ := check_done hcheck
  obtain ⟨b, hresult', hanswers⟩ := h a hresult
  rw [hresult']
  exact ⟨b, check_ok b s', hanswers⟩

end Repeats

/-! ## Names -/

/-- Corresponding names for the same values. -/
def Table (names : String → String → Prop) : Names → Names → Prop :=
  List.Forall₂ fun entry entry' => names entry.1 entry'.1 ∧ entry'.2 = entry.2

/-- **Corresponding names stand for the same values.** -/
theorem Table.lookup_eq (hnames : Relator.BiUnique names) {table table' : Names}
    (h : Table names table table') {a b : String} (hab : names a b) :
    table'.lookup b = table.lookup a := by
  induction h with
  | nil => rfl
  | @cons entry entry' rest rest' hentry _ ih =>
    obtain ⟨name, v⟩ := entry
    obtain ⟨name', v'⟩ := entry'
    obtain ⟨hname, rfl⟩ := hentry
    have hsame : (b == name') = (a == name) :=
      Bool.eq_iff_iff.2 (by
        rw [beq_iff_eq, beq_iff_eq]
        exact (Relator.rel_eq hnames hab hname).symm)
    rw [List.lookup_cons, List.lookup_cons, hsame, ih]

theorem Table.resolve (hnames : Relator.BiUnique names) {table table' : Names}
    (h : Table names table table') {operands operands' : List String}
    (hoperands : List.Forall₂ names operands operands') {offset offset' : Nat} {vs : List ValueId}
    (hresolve : operands.mapM (table.resolve offset) = .ok vs) :
    operands'.mapM (table'.resolve offset') = .ok vs := by
  induction hoperands generalizing vs with
  | nil => exact hresolve
  | @cons a b rest rest' hab _ ih =>
    rw [List.mapM_cons] at hresolve ⊢
    obtain ⟨v, hv, hrest⟩ := bind_eq_ok.1 hresolve
    obtain ⟨vs', hvs', hpure⟩ := bind_eq_ok.1 hrest
    have hv' : table'.resolve offset' b = .ok v := by
      unfold Names.resolve at hv ⊢
      rw [h.lookup_eq hnames hab]
      split at hv
      · exact hv
      · cases hv
    exact bind_eq_ok.2 ⟨v, hv', bind_eq_ok.2 ⟨vs', ih hvs', hpure⟩⟩

/-! ## Lines -/

/-- The second line says the same as the first one in other names, and may leave the annotation out
unless it gives the type of a constant. -/
structure Line.Reworded (names : String → String → Prop) (line line' : Line) : Prop where
  front : line.SameFront names line'
  ty : line'.ty? = line.ty? ∨ line'.ty? = none ∧ ∀ value, line.literal? ≠ some (.int value)

namespace Line.Reworded

variable {line line' : Line} {table table' : Names}

theorem instruction?_eq (h : line.Reworded names line') :
    line'.instruction? = line.instruction? := by
  unfold Line.instruction?
  rw [h.front.literal, h.front.mnemonic]

/-- The annotation is the same, or there is none where no constant needs one. -/
def SameAnnotation (line : Line) (annotated? annotated'? : Option Ty) : Prop :=
  annotated'? = annotated? ∨ annotated'? = none ∧ ∀ value, line.literal? ≠ some (.int value)

theorem annotated (h : line.Reworded names line') {annotated? : Option Ty}
    (hread : line.ty?.mapM (fun name => readTy name line.offset) = .ok annotated?) :
    ∃ annotated'?, line'.ty?.mapM (fun name => readTy name line'.offset) = .ok annotated'? ∧
      SameAnnotation line annotated? annotated'? := by
  rcases h.ty with hty | ⟨hty, hliteral⟩
  · refine ⟨annotated?, ?_, .inl rfl⟩
    rw [hty]
    cases hname : line.ty? with
    | none => rwa [hname] at hread
    | some name =>
      rw [hname, Option.mapM_some] at hread
      obtain ⟨ty, hfound, rfl⟩ := map_eq_ok.1 hread
      have hfound' : readTy name line'.offset = .ok ty := by
        unfold readTy at hfound ⊢
        split at hfound
        · exact hfound
        · cases hfound
      rw [Option.mapM_some, hfound']
      rfl
  · refine ⟨none, ?_, .inr ⟨rfl, hliteral⟩⟩
    rw [hty]
    rfl

variable {annotated? annotated'? : Option Ty}

/-- **A line asks for the same call** in other words. -/
theorem asks (h : line.Reworded names line') (hty : SameAnnotation line annotated? annotated'?)
    {operands : List ValueId} {order : Builder.Call} (hasks : line.Asks annotated? operands order) :
    line'.Asks annotated'? operands order := by
  have hlength := h.front.operands.length_eq
  cases hasks with
  | int hline hcount hannotated hfits =>
    have horigin := line.instruction?_origin
    rw [hline] at horigin
    obtain rfl := hty.resolve_right fun hnone => hnone.2 _ horigin
    exact .int (h.instruction?_eq.trans hline) (hlength.symm.trans hcount) hannotated hfits
  | double hline hcount =>
    exact .double (h.instruction?_eq.trans hline) (hlength.symm.trans hcount)
  | unary hline => exact .unary (h.instruction?_eq.trans hline)
  | binary hline => exact .binary (h.instruction?_eq.trans hline)
  | compare hline => exact .compare (h.instruction?_eq.trans hline)
  | ret hline => exact .ret (h.instruction?_eq.trans hline)

/-- **The result of a line is bound alike** in other words. -/
theorem binds (hnames : Relator.BiUnique names) (h : line.Reworded names line')
    (htable : Table names table table') (hty : SameAnnotation line annotated? annotated'?)
    {s : Store} {v? : Option ValueId} {table₁ : Names}
    (hbinds : line.Binds s table annotated? v? table₁) :
    ∃ table₁', line'.Binds s table' annotated'? v? table₁' ∧ Table names table₁ table₁' := by
  have hresult := h.front.result
  cases hbinds with
  | nothing hnone =>
    rw [hnone] at hresult
    generalize hresult' : line'.result? = result'? at hresult
    cases hresult
    exact ⟨table', .nothing hresult', htable⟩
  | value hsome hvalue hannotated hfree =>
    rw [hsome] at hresult
    generalize hresult' : line'.result? = result'? at hresult
    cases hresult with
    | some hname =>
      refine ⟨_, .value hresult' hvalue ?_ ((htable.lookup_eq hnames hname).trans hfree),
        .cons ⟨hname, rfl⟩ htable⟩
      rcases hty with rfl | ⟨rfl, -⟩
      · exact hannotated
      · nofun

/-- **Lines are built alike** in other words. -/
theorem assemble (hnames : Relator.BiUnique names) (h : line.Reworded names line')
    (htable : Table names table table') :
    Repeats (Table names) (line.assemble p table) (line'.assemble p table') := by
  intro s table₁ s' hdone
  obtain ⟨operands, annotated?, order, v?, hresolve, hread, hasks, hcall, hbinds⟩ :=
    Line.assemble_eq_done.1 hdone
  obtain ⟨annotated'?, hread', hty⟩ := h.annotated hread
  obtain ⟨table₁', hbinds', htable'⟩ := h.binds hnames htable hty hbinds
  -- where a line is does not matter to the builders
  obtain ⟨b, hgive, rfl⟩ := call_eq_done hcall
  exact ⟨table₁', Line.assemble_eq_done.2 ⟨operands, annotated'?, order, v?,
    htable.resolve hnames h.front.operands hresolve, hread', h.asks hty hasks,
    call_done line'.offset hgive, hbinds'⟩, htable'⟩

end Line.Reworded

/-- **Lines are built alike** in other words, one after another. -/
theorem namesAfter_reworded (hnames : Relator.BiUnique names) {lines lines' : List Line}
    (hlines : List.Forall₂ (Line.Reworded names) lines lines') {table table' : Names}
    (htable : Table names table table') :
    Repeats (Table names) (namesAfter p lines table) (namesAfter p lines' table') := by
  induction hlines generalizing table table' with
  | nil => exact .pure htable
  | @cons line line' rest rest' hline _ ih =>
    rw [namesAfter, namesAfter, List.foldlM_cons, List.foldlM_cons]
    exact (hline.assemble hnames htable).bind fun _ _ h => ih h

/-! ## Headers -/

theorem nameParams_renamed (hnames : Relator.BiUnique names) {params params' : List String}
    (hparams : List.Forall₂ names params params') {vs : List ValueId} {table table' found : Names}
    (htable : Table names table table') (h : nameParams (params.zip vs) table = .ok found) :
    ∃ found', nameParams (params'.zip vs) table' = .ok found' ∧ Table names found found' := by
  induction hparams generalizing vs table table' with
  | nil =>
    cases h
    exact ⟨table', rfl, htable⟩
  | @cons name name' rest rest' hname _ ih =>
    cases vs with
    | nil =>
      cases h
      exact ⟨table', rfl, htable⟩
    | cons v vs =>
      rw [List.zip_cons_cons, nameParams] at h ⊢
      rw [htable.lookup_eq hnames hname]
      split at h
      · cases h
      · next hnew =>
        rw [if_neg hnew]
        have hmore : Table names ((name, v) :: table) ((name', v) :: table') :=
          .cons ⟨hname, rfl⟩ htable
        exact ih hmore h

/-- **Headers create the same program** in other names. -/
theorem Header.Same.create (hnames : Relator.BiUnique names) {header header' : Header}
    (h : header.Same names header') :
    Repeats (fun begun begun' => begun'.1 = begun.1 ∧ Table names begun.2 begun'.2)
      header.create header'.create := by
  have htys : header'.params.mapM (fun param => readTy param.2 0) =
      header.params.mapM fun param => readTy param.2 0 := by
    have hparams := h.params
    generalize header.params = params at hparams
    generalize header'.params = params' at hparams
    induction hparams with
    | nil => rfl
    | cons hparam _ ih => rw [List.mapM_cons, List.mapM_cons, ih, hparam.2]
  have hparams : List.Forall₂ names (header.params.map (·.1)) (header'.params.map (·.1)) := by
    rw [List.forall₂_map_left_iff, List.forall₂_map_right_iff]
    exact h.params.imp fun _ _ hparam => hparam.1
  unfold Header.create
  rw [htys, h.name]
  refine (Repeats.refl _).bind ?_
  rintro tys _ rfl
  refine (Repeats.refl _).bind ?_
  rintro p _ rfl
  refine (Repeats.refl _).bind ?_
  rintro inputs _ rfl
  have hcheck : Repeats (Table names)
      (check (nameParams ((header.params.map (·.1)).zip inputs) []))
      (check (nameParams ((header'.params.map (·.1)).zip inputs) [])) :=
    .check fun _ htable => nameParams_renamed hnames hparams .nil htable
  exact hcheck.bind fun _ _ htable => .pure ⟨rfl, htable⟩

/-! ## Listings -/

/-- The second listing says the same as the first one, in other names and with fewer annotations. -/
structure Reworded (names : String → String → Prop) (listing listing' : Listing) : Prop where
  header : listing.header.Same names listing'.header
  lines : List.Forall₂ (Line.Reworded names) listing.lines listing'.lines

/-- **Listings in other words** make the same program. -/
theorem Reworded.assemble (hnames : Relator.BiUnique names) {listing listing' : Listing}
    (h : Reworded names listing listing') : Repeats Eq listing.assemble listing'.assemble := by
  rw [assemble_eq, assemble_eq]
  refine (h.header.create hnames).bind fun begun begun' hbegun => ?_
  obtain ⟨hprogram, htable⟩ := hbegun
  rw [hprogram]
  exact (namesAfter_reworded hnames h.lines htable).bind fun _ _ _ => .refl _

end Listing

end Mba
