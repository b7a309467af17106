import Mba.Proofs.Listing.Printing
import Mba.Proofs.Listing.Stages

/-!
# What is read

A text that is read as a program has an identifier for a name, and leaves a program in order, in
whatever store it is read: the operations of its lines, each well typed and behind those that define
what it reads. Its double constants are those of the listing.

Results:
* `Line.Asks.emits`: what the call that a line asks for has done.
* `Assembled.assemble`, `Assembled.assembleLines`: building lines keeps the program in order.
* `Assembled.appended`: building lines appends operations to the program.
* `Program.read_done`, `Program.read_appended`: what reading a text leaves.
-/

namespace Mba

open Listing Store

namespace Listing

variable {α : Type} {s s' : Store} {p : Program}

/-! ## Lines -/

/-- A line is built as the operation of a draft at the end of the program: the operation is well
typed, reads some of the operands, is a double constant only if the line is, and defines `v?`. -/
structure Line.Emits (line : Line) (s : Store) (p : Program) (done : List OpId)
    (operands : List ValueId) (draft : Draft) (v? : Option ValueId) (s' : Store) : Prop where
  emitted : s.Emitted p.entry (done ++ [⟨s.ops.size⟩]) draft s'
  typed : WellTyped s draft.opcode draft.operands draft.resultTy?
  reads : ∀ v ∈ draft.operands, v ∈ operands
  constant : ∀ bits, draft.opcode = .fconst bits → line.literal? = some (.double ⟨bits⟩)
  result : ∀ v ∈ v?, s'.result? ⟨s.ops.size⟩ = some v

variable {start : Nat} {done : List OpId}

/-- **What the call that a line asks for has done.** -/
theorem Line.Asks.emits {line : Line} {operands : List ValueId} {annotated? : Option Ty}
    {order : Builder.Call} {v? : Option ValueId} (hasks : line.Asks annotated? operands order)
    (hs : s.Built p start done) (hoperands : ∀ v ∈ operands, s.isAllocated v = true)
    (h : call p line.offset order.give s = .done v? s') :
    ∃ draft, line.Emits s p done operands draft v? s' := by
  obtain ⟨b, hgive, rfl⟩ := call_eq_done h
  obtain ⟨target, htarget, hops⟩ := ops_eq_ok_iff.1 hs.listed
  rcases Builder.Call.give_outcome hs.consistent (.atEnd p.entry) htarget
      (congrArg (· ++ _) hops.symm) order
      (fun v hv => hoperands v (hasks.operands_subset v hv)) [] with
    ⟨e, hfailed⟩ | ⟨opcode, ty?, s', hmakes, hdone, he⟩
  · cases hgive.symm.trans hfailed
  · cases hgive.symm.trans hdone
    refine ⟨_, he, hmakes.wellTyped, hasks.operands_subset, fun bits hbits => ?_, fun v hv => ?_⟩
    · cases hbits
      obtain rfl := hmakes.eq_double
      exact hasks.literal?
    · exact ((he.result? _).trans (if_pos rfl)).trans hv

/-! ## Building a listing -/

theorem resolve_ok {names : Names} {offset : Nat} {name : String} {v : ValueId}
    (h : names.resolve offset name = .ok v) : (name, v) ∈ names := by
  unfold Names.resolve at h
  split at h
  · next w hlookup =>
    cases h
    obtain ⟨front, back, rfl, -⟩ := List.lookup_eq_some_iff.1 hlookup
    exact List.mem_append_right _ List.mem_cons_self
  · cases h

/-- What holds while lines are built: the program is in order, and the values known by name are its
inputs and results. -/
structure Assembled (s : Store) (p : Program) (start : Nat) (done : List OpId) (names : Names) :
    Prop where
  built : s.Built p start done
  names : ∀ entry ∈ names, s.Defines p done entry.2

/-- The operands of a line are values of the program. -/
theorem Assembled.defines_of_resolve {names : Names} {offset : Nat} {operands : List String}
    {vs : List ValueId} (hs : Assembled s p start done names)
    (h : operands.mapM (names.resolve offset) = .ok vs) : ∀ v ∈ vs, s.Defines p done v := by
  intro v hv
  obtain ⟨name, -, hname⟩ := exists_of_mem_mapM h hv
  exact hs.names _ (resolve_ok hname)

/-- The double constant of a line is no NaN. -/
def Line.NaNFree (line : Line) : Prop :=
  ∀ x, line.literal? = some (.double x) → x.isNaN = false

/-- **Building a line** emits its operation over known values. -/
theorem Assembled.emits {line : Line} {names names' : Names}
    (hs : Assembled s p start done names) (h : line.assemble p names s = .done names' s') :
    ∃ operands draft v?, line.Emits s p done operands draft v? s' ∧
      (∀ v ∈ draft.operands, s.Defines p done v) ∧
      Assembled s' p start (done ++ [⟨s.ops.size⟩]) names' := by
  obtain ⟨operands, annotated?, order, v?, hresolve, -, hasks, hcall, hbinds⟩ :=
    Line.assemble_eq_done.1 h
  have hdefined := hs.defines_of_resolve hresolve
  obtain ⟨draft, he⟩ := hasks.emits hs.built
    (fun v hv => (hdefined v hv).isAllocated hs.built.consistent.owned) hcall
  have hreads : ∀ v ∈ draft.operands, s.Defines p done v := fun v hv => hdefined v (he.reads v hv)
  refine ⟨operands, draft, v?, he, hreads, hs.built.emitted hreads he.typed he.emitted,
    fun entry hentry => ?_⟩
  rw [defines_append_singleton]
  rcases hbinds.mem entry hentry with hold | ⟨hnew, -⟩
  · exact .inl (he.emitted.defines_of_defines (fun _ ho => ho) (hs.names entry hold))
  · exact .inr (he.result _ hnew)

/-- **Building a line** keeps the program in order, and makes a NaN constant only of a NaN. -/
theorem Assembled.assemble {line : Line} {names names' : Names}
    (hs : Assembled s p start done names) (h : line.assemble p names s = .done names' s') :
    Assembled s' p start (done ++ [⟨s.ops.size⟩]) names' ∧
      (s.NaNFree → line.NaNFree → s'.NaNFree) := by
  obtain ⟨operands, draft, v?, he, -, hassembled⟩ := hs.emits h
  refine ⟨hassembled, fun hnan hline d hd bits hbits => ?_⟩
  rw [he.emitted.ops, Array.mem_push] at hd
  rcases hd with hold | rfl
  · exact hnan d hold bits hbits
  · exact hline _ (he.constant bits hbits)

/-- **Building lines** keeps the program in order, and makes NaN constants only of NaNs. -/
theorem Assembled.assembleLines {lines : List Line} {names : Names}
    (hs : Assembled s p start done names) (h : assembleLines p lines names s = .done () s') :
    (∃ done', s'.Built p start done') ∧
      (s.NaNFree → (∀ line ∈ lines, line.NaNFree) → s'.NaNFree) := by
  induction lines generalizing names s done with
  | nil =>
    cases h
    exact ⟨⟨done, hs.built⟩, fun hnan _ => hnan⟩
  | cons line rest ih =>
    obtain ⟨names₁, s₁, hline, hrest⟩ := Edit.bind_eq_done.1 h
    obtain ⟨hs₁, hnan₁⟩ := hs.assemble hline
    obtain ⟨hbuilt, hnan'⟩ := ih hs₁ hrest
    obtain hall := @List.forall_mem_cons _ Line.NaNFree line rest
    exact ⟨hbuilt, fun hnan hlines => hnan' (hnan₁ hnan (hall.1 hlines).1) (hall.1 hlines).2⟩

/-- **Building lines** appends operations to the program. -/
theorem Assembled.appended {lines : List Line} {names : Names}
    (hs : Assembled s p start done names) (h : Listing.assembleLines p lines names s = .done () s') :
    ∃ done', Appended p s done s' done' := by
  induction lines generalizing names s done with
  | nil =>
    cases h
    exact ⟨done, .refl _ done⟩
  | cons line rest ih =>
    obtain ⟨names₁, s₁, hline, hrest⟩ := Edit.bind_eq_done.1 h
    obtain ⟨operands, draft, v?, he, hreads, hs₁⟩ := hs.emits hline
    obtain ⟨done', happended⟩ := ih hs₁ hrest
    exact ⟨done', .step hreads he.typed he.emitted happended⟩

theorem nameParams_mem {params : List (String × ValueId)} {names names' : Names}
    (h : nameParams params names = .ok names') :
    ∀ entry ∈ names', entry ∈ names ∨ entry ∈ params := by
  induction params generalizing names with
  | nil =>
    cases h
    exact fun _ => .inl
  | cons param rest ih =>
    obtain ⟨name, v⟩ := param
    unfold nameParams at h
    split at h
    · cases h
    · intro entry hentry
      rcases ih h entry hentry with hnames | hrest
      · rcases List.mem_cons.1 hnames with rfl | hold
        · exact .inr List.mem_cons_self
        · exact .inl hold
      · exact .inr (List.mem_cons_of_mem _ hrest)

/-- **What a header creates**: a program without operations, whose inputs are known by the names of
the parameters. -/
theorem Header.create_done {header : Header} {names : Names} {s₀ : Store} (hs₀ : s₀.Consistent)
    (h : header.create s₀ = .done (p, names) s) :
    p = ⟨header.name, ⟨s₀.blocks.size⟩⟩ ∧ Assembled s p s₀.ops.size [] names ∧
      (∀ entry ∈ names, entry.1 ∈ header.params.map (·.1)) ∧
      ∃ tys, s = (s₀.createBlock tys []).2 := by
  obtain ⟨tys, s₁, htys, hcreate⟩ := Edit.bind_eq_done.1 h
  obtain ⟨-, rfl⟩ := check_done htys
  obtain ⟨p', s₂, hupdate, hread⟩ := Edit.bind_eq_done.1 hcreate
  cases hupdate
  obtain ⟨inputs, s₃, hinputs, hcheck⟩ := Edit.bind_eq_done.1 hread
  obtain ⟨⟨⟩, rfl⟩ := Edit.read_eq_done.1 hinputs
  obtain ⟨names', s₄, hcheck', hpure⟩ := Edit.bind_eq_done.1 hcheck
  obtain ⟨hnames, rfl⟩ := check_done hcheck'
  cases hpure
  have hparams : ∀ entry ∈ names, entry ∈ (header.params.map (·.1)).zip _ := fun entry hentry =>
    (nameParams_mem hnames entry hentry).resolve_left List.not_mem_nil
  exact ⟨rfl, ⟨hs₀.built_create _ tys, fun entry hentry => .inl (List.of_mem_zip
    (hparams entry hentry)).2⟩, fun entry hentry => (List.of_mem_zip (hparams entry hentry)).1,
    tys, rfl⟩

/-- **Building lines keeps the program in order**, and adds only their results to the names. -/
theorem Assembled.namesAfter {lines : List Line} {names names' : Names}
    (hs : Assembled s p start done names)
    (h : namesAfter p lines names s = .done names' s') :
    ∃ done', Assembled s' p start done' names' ∧
      ∀ entry ∈ names', entry ∈ names ∨ ∃ line ∈ lines, line.result? = some entry.1 := by
  induction lines generalizing names s done with
  | nil =>
    cases h
    exact ⟨done, hs, fun _ => .inl⟩
  | cons line rest ih =>
    rw [Listing.namesAfter, List.foldlM_cons] at h
    obtain ⟨names₁, s₁, hline, hrest⟩ := Edit.bind_eq_done.1 h
    obtain ⟨-, -, -, -, -, hs₁⟩ := hs.emits hline
    obtain ⟨done', hs', hnames⟩ := ih hs₁ hrest
    refine ⟨done', hs', fun entry hentry => ?_⟩
    rcases hnames entry hentry with hold | ⟨line', hline', hresult⟩
    · exact (Line.assemble_names hline entry hold).imp_right fun hresult =>
        ⟨line, List.mem_cons_self, hresult⟩
    · exact .inr ⟨line', List.mem_cons_of_mem _ hline', hresult⟩

/-- **Building a listing** creates a program and builds its lines. -/
theorem exists_assembled {listing : Listing} {s₀ : Store} (hs₀ : s₀.Consistent)
    (h : listing.assemble s₀ = .done p s) :
    ∃ tys names, p = ⟨listing.header.name, ⟨s₀.blocks.size⟩⟩ ∧
      Assembled (s₀.createBlock tys []).2 p s₀.ops.size [] names ∧
      assembleLines p listing.lines names (s₀.createBlock tys []).2 = .done () s := by
  obtain ⟨names, names', s₁, hcreate, hlines⟩ := assemble_eq_done.1 h
  obtain ⟨hp, hstart, -, tys, rfl⟩ := Header.create_done hs₀ hcreate
  refine ⟨tys, names, hp, hstart, ?_⟩
  rw [assembleLines_eq]
  exact Edit.bind_done hlines

/-- **What building a listing leaves.** -/
theorem assemble_done {listing : Listing} {s₀ : Store} (hs₀ : s₀.Consistent)
    (h : listing.assemble s₀ = .done p s) :
    p.name = listing.header.name ∧ (∃ done, s.Built p s₀.ops.size done) ∧
      (s₀.NaNFree → (∀ line ∈ listing.lines, line.NaNFree) → s.NaNFree) := by
  obtain ⟨tys, names, rfl, hstart, hdone⟩ := exists_assembled hs₀ h
  exact ⟨rfl, hstart.assembleLines hdone⟩

/-! ## Texts -/

/-- The name of a program that is read is an identifier. -/
theorem isIdentifier_of_header {text rest : List Char} {header : Header}
    (h : Scanner.header text = .ok (header, rest)) :
    Scanner.isIdentifier header.name.toList = true := by
  unfold Scanner.header at h
  obtain ⟨_, text₁, -, h₁⟩ := Scanner.bind_eq_ok.1 h
  obtain ⟨_, text₂, -, h₂⟩ := Scanner.bind_eq_ok.1 h₁
  obtain ⟨_, text₃, -, h₃⟩ := Scanner.bind_eq_ok.1 h₂
  obtain ⟨_, text₄, -, h₄⟩ := Scanner.bind_eq_ok.1 h₃
  obtain ⟨name, text₅, hname, h₅⟩ := Scanner.bind_eq_ok.1 h₄
  obtain ⟨_, text₆, -, h₆⟩ := Scanner.bind_eq_ok.1 h₅
  obtain ⟨_, text₇, -, h₇⟩ := Scanner.bind_eq_ok.1 h₆
  obtain ⟨params?, text₈, -, h₈⟩ := Scanner.bind_eq_ok.1 h₇
  obtain ⟨_, text₉, -, h₉⟩ := Scanner.bind_eq_ok.1 h₈
  obtain ⟨_, text₁₀, -, h₁₀⟩ := Scanner.bind_eq_ok.1 h₉
  obtain ⟨_, text₁₁, -, h₁₁⟩ := Scanner.bind_eq_ok.1 h₁₀
  obtain ⟨_, text₁₂, -, h₁₂⟩ := Scanner.bind_eq_ok.1 h₁₁
  cases h₁₂
  rw [String.toList_ofList]
  exact Scanner.isIdentifier_of_identifier hname

end Listing

/-- No double constant of the text is a NaN. -/
def NaNFreeText (text : String) : Prop :=
  ∀ listing, Listing.ofText text = .ok listing →
    ∀ line ∈ listing.lines, ∀ x, line.literal? = some (.double x) → x.isNaN = false

/-- **What reading a text into a store leaves.** -/
theorem Program.read_done {text : String} {s₀ s : Store} {p : Program} (hs₀ : s₀.Consistent)
    (h : Program.read text s₀ = .done p s) :
    Scanner.isIdentifier p.name.toList = true ∧ (∃ done, s.Built p s₀.ops.size done) ∧
      (s₀.NaNFree → NaNFreeText text → s.NaNFree) := by
  obtain ⟨listing, s₁, hcheck, hassemble⟩ := Edit.bind_eq_done.1 h
  obtain ⟨hlisting, rfl⟩ := check_done hcheck
  obtain ⟨hname, hbuilt, hnan⟩ := assemble_done hs₀ hassemble
  refine ⟨?_, hbuilt, fun hnan₀ htext => hnan hnan₀ (htext listing hlisting)⟩
  unfold Listing.ofText at hlisting
  dsimp only at hlisting
  split at hlisting
  · cases hlisting
  · next header rest hheader =>
    obtain ⟨lines, -, rfl⟩ := map_eq_ok.1 hlisting
    rw [hname]
    exact isIdentifier_of_header hheader

/-- **Reading a text into a store** creates a program there and appends operations to it. -/
theorem Program.read_appended {text : String} {s₀ s : Store} {p : Program} (hs₀ : s₀.Consistent)
    (h : Program.read text s₀ = .done p s) :
    ∃ name tys done, p = ⟨name, ⟨s₀.blocks.size⟩⟩ ∧
      Appended p (s₀.createBlock tys []).2 [] s done := by
  obtain ⟨listing, s₁, hcheck, hassemble⟩ := Edit.bind_eq_done.1 h
  obtain ⟨-, rfl⟩ := check_done hcheck
  obtain ⟨tys, names, rfl, hstart, hdone⟩ := exists_assembled hs₀ hassemble
  obtain ⟨done, happended⟩ := hstart.appended hdone
  exact ⟨_, tys, done, rfl, happended⟩

end Mba
