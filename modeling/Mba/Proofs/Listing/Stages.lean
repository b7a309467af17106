import Mba.Listing.Assembly
import Mba.Proofs.Program.Calls

/-!
# Building a listing in stages

The header of a listing makes a program and the first names, and then line follows line. A line is
built in stages too. Its operands and its type are looked up, and decide which call of a builder it
asks for. Then the call is made, and the name of the line is bound to the value that it gives. Only
the call changes the store.

Results:
* `Line.order`, `Line.Asks`, `Line.emit_eq`: the call that a line asks for, which emits its
  operation.
* `Line.Binds`, `Line.bindResult_eq_done`: what a line does to the names.
* `Line.assemble_eq_done`: the stages of a line.
* `assembleLines_eq`, `namesAfter_append`: lines are built one after another.
* `assemble_eq`: the header comes first.
-/

namespace Mba

open Listing Store

namespace Listing

variable {α β : Type} {s s' : Store} {p : Program} {names names' : Names} {line : Line}
  {operands : List ValueId} {annotated? : Option Ty} {v? : Option ValueId}

/-! ## Checks and calls -/

theorem check_ok (a : α) (s : Store) : check (.ok a) s = .done a s := rfl

theorem check_done {result : Except ReadError α} {a : α} (h : check result s = .done a s') :
    result = .ok a ∧ s' = s := by
  cases result with
  | ok b =>
    cases h
    exact ⟨rfl, rfl⟩
  | error e => cases h

theorem call_done {calls : Edit Builder BuildError α} {a : α} {b : Builder} (offset : Nat)
    (h : calls ⟨s, .atEnd p.entry, []⟩ = .done a b) : call p offset calls s = .done a b.store := by
  have hbuild : Store.build (.atEnd p.entry) calls s = .done (a, b.emitted) b.store := by
    rw [Store.build, Builder.start, h]
  exact Edit.bind_done (Edit.mapError_done hbuild _)

theorem call_eq_done {calls : Edit Builder BuildError α} {a : α} {offset : Nat}
    (h : call p offset calls s = .done a s') :
    ∃ b, calls ⟨s, .atEnd p.entry, []⟩ = .done a b ∧ b.store = s' := by
  obtain ⟨⟨a', emitted⟩, s₁, hbuild, hpure⟩ := Edit.bind_eq_done.1 h
  cases hpure
  have hcalls := Edit.mapError_eq_done.1 hbuild
  unfold Store.build at hcalls
  split at hcalls
  · next b hb =>
    cases hcalls
    exact ⟨_, hb, rfl⟩
  · cases hcalls
  · cases hcalls

theorem call_map (p : Program) (offset : Nat) (calls : Edit Builder BuildError α) (f : α → β) :
    call p offset (f <$> calls) = f <$> call p offset calls := by
  funext s
  show Edit.bind (Edit.mapError _ (Store.build _ (Edit.bind calls _))) _ s =
    Edit.bind (Edit.bind (Edit.mapError _ (Store.build _ calls)) _) _ s
  unfold Edit.bind Edit.mapError Store.build
  dsimp only
  cases calls (Builder.start s (.atEnd p.entry)) <;> rfl

/-! ## What a line asks for -/

/-- What the instruction of a line is taken from. -/
theorem Line.instruction?_origin (line : Line) :
    match line.instruction? with
    | some (.int value) => line.literal? = some (.int value)
    | some (.double x) => line.literal? = some (.double x)
    | some .ret => line.mnemonic = "return"
    | _ => True := by
  unfold Line.instruction?
  cases line.literal? with
  | some literal => cases literal <;> rfl
  | none =>
    dsimp only
    split_ifs with hreturn
    · exact hreturn
    · cases UnaryOp.ofMnemonic? line.mnemonic <;>
        cases BinaryOp.ofMnemonic? line.mnemonic <;>
        cases Comparison.ofMnemonic? line.mnemonic <;> trivial

/-- The call of a builder that a line asks for, over the values of its operands. -/
def Line.order (line : Line) (operands : List ValueId) (annotated? : Option Ty) :
    Except ReadError Builder.Call :=
  match line.instruction?, operands with
  | none, _ => .error ⟨.unknownOpcode line.mnemonic, line.offset⟩
  | some .ret, outputs => .ok (.ret outputs)
  | some (.int value), _ => do
    line.expectOperands 0
    let ty ← line.constantTy value annotated?
    return .int ty value
  | some (.double x), _ => do
    line.expectOperands 0
    return .double x
  | some (.unary op), [x] => .ok (.unary op x)
  | some (.unary _), found => .error ⟨.operandCount line.mnemonic 1 found.length, line.offset⟩
  | some (.binary op), [x, y] => .ok (.binary op x y)
  | some (.compare test), [x, y] => .ok (.compare test x y)
  | some (.binary _), found | some (.compare _), found =>
    .error ⟨.operandCount line.mnemonic 2 found.length, line.offset⟩

/-- **The operation of a line is emitted by the call that it asks for.** -/
theorem Line.emit_eq (line : Line) (p : Program) (operands : List ValueId)
    (annotated? : Option Ty) : line.emit p operands annotated? =
      check (line.order operands annotated?) >>= fun order => call p line.offset order.give := by
  unfold Line.emit Line.order
  cases line.instruction? with
  | none => rfl
  | some instruction =>
    cases instruction with
    | ret => exact (call_map p line.offset (Builder.ret operands) _).symm
    | int value =>
      dsimp only
      cases line.expectOperands 0 with
      | error e => rfl
      | ok _ =>
        cases line.constantTy value annotated? with
        | error e => rfl
        | ok ty => exact (call_map p line.offset (Builder.int ty value) some).symm
    | double x =>
      dsimp only
      cases line.expectOperands 0 with
      | error e => rfl
      | ok _ => exact (call_map p line.offset (Builder.double x) some).symm
    | unary op =>
      match operands with
      | [x] => exact (call_map p line.offset (Builder.unary op x) some).symm
      | [] | _ :: _ :: _ => rfl
    | binary op =>
      match operands with
      | [x, y] => exact (call_map p line.offset (Builder.binary op x y) some).symm
      | [] | [_] | _ :: _ :: _ :: _ => rfl
    | compare test =>
      match operands with
      | [x, y] => exact (call_map p line.offset (Builder.compare test x y) some).symm
      | [] | [_] | _ :: _ :: _ :: _ => rfl

theorem Line.expectOperands_eq_ok {count : Nat} {u : Unit} :
    line.expectOperands count = .ok u ↔ line.operands.length = count := by
  unfold Line.expectOperands
  split
  · next hcount => exact iff_of_true rfl hcount
  · next hcount => exact iff_of_false nofun hcount

theorem Line.constantTy_eq_ok {value : Int} {ty : Ty} :
    line.constantTy value annotated? = .ok ty ↔
      annotated? = some ty ∧ ∀ w ∈ ty.width?, w.signed (w.ofInt value) = value := by
  unfold Line.constantTy
  cases annotated? with
  | none => exact iff_of_false nofun nofun
  | some annotated =>
    dsimp only
    split
    · next hrange =>
      refine iff_of_false nofun ?_
      rintro ⟨⟨⟩, hfits⟩
      obtain ⟨w, hw, hwrong⟩ := (Option.any_eq_true _ _).1 hrange
      exact of_decide_eq_true hwrong (hfits w hw)
    · next hrange =>
      have hfits : ∀ w ∈ annotated.width?, w.signed (w.ofInt value) = value := by
        intro w hw
        by_contra hwrong
        exact hrange ((Option.any_eq_true _ _).2 ⟨w, hw, decide_eq_true hwrong⟩)
      constructor
      · rintro ⟨⟩
        exact ⟨rfl, hfits⟩
      · rintro ⟨⟨⟩, -⟩
        rfl

/-- The line asks for the call over the values of its operands. -/
inductive Line.Asks (line : Line) (annotated? : Option Ty) : List ValueId → Builder.Call → Prop
  | int {operands : List ValueId} {value : Int} {ty : Ty}
      (hline : line.instruction? = some (.int value)) (hcount : line.operands.length = 0)
      (hannotated : annotated? = some ty)
      (hfits : ∀ w ∈ ty.width?, w.signed (w.ofInt value) = value) :
      Asks line annotated? operands (.int ty value)
  | double {operands : List ValueId} {x : Double} (hline : line.instruction? = some (.double x))
      (hcount : line.operands.length = 0) : Asks line annotated? operands (.double x)
  | unary {op : UnaryOp} {x : ValueId} (hline : line.instruction? = some (.unary op)) :
      Asks line annotated? [x] (.unary op x)
  | binary {op : BinaryOp} {x y : ValueId} (hline : line.instruction? = some (.binary op)) :
      Asks line annotated? [x, y] (.binary op x y)
  | compare {test : Comparison} {x y : ValueId} (hline : line.instruction? = some (.compare test)) :
      Asks line annotated? [x, y] (.compare test x y)
  | ret {outputs : List ValueId} (hline : line.instruction? = some .ret) :
      Asks line annotated? outputs (.ret outputs)

variable {order : Builder.Call}

theorem Line.order_eq_ok :
    line.order operands annotated? = .ok order ↔ line.Asks annotated? operands order := by
  constructor
  · intro h
    unfold Line.order at h
    split at h
    case h_2 hline =>
      cases h
      exact .ret hline
    case h_3 hline =>
      obtain ⟨_, hcount, hrest⟩ := bind_eq_ok.1 h
      obtain ⟨ty, hty, hpure⟩ := bind_eq_ok.1 hrest
      cases hpure
      obtain ⟨hannotated, hfits⟩ := Line.constantTy_eq_ok.1 hty
      exact .int hline (Line.expectOperands_eq_ok.1 hcount) hannotated hfits
    case h_4 hline =>
      obtain ⟨_, hcount, hpure⟩ := bind_eq_ok.1 h
      cases hpure
      exact .double hline (Line.expectOperands_eq_ok.1 hcount)
    case h_5 hline =>
      cases h
      exact .unary hline
    case h_7 hline =>
      cases h
      exact .binary hline
    case h_8 hline =>
      cases h
      exact .compare hline
    all_goals cases h
  · intro h
    unfold Line.order
    cases h with
    | int hline hcount hannotated hfits =>
      rw [hline]
      exact bind_eq_ok.2 ⟨(), Line.expectOperands_eq_ok.2 hcount,
        bind_eq_ok.2 ⟨_, Line.constantTy_eq_ok.2 ⟨hannotated, hfits⟩, rfl⟩⟩
    | double hline hcount =>
      rw [hline]
      exact bind_eq_ok.2 ⟨(), Line.expectOperands_eq_ok.2 hcount, rfl⟩
    | unary hline | binary hline | compare hline | ret hline => rw [hline]

namespace Line.Asks

theorem operands_subset (h : line.Asks annotated? operands order) :
    ∀ v ∈ order.operands, v ∈ operands := by
  cases h with
  | int | double => nofun
  | unary | binary | compare | ret => exact fun v hv => hv

/-- A line asks for a double constant only if it has one. -/
theorem literal? {x : Double} (h : line.Asks annotated? operands (.double x)) :
    line.literal? = some (.double x) := by
  have horigin := line.instruction?_origin
  cases h with
  | double hline => rwa [hline] at horigin

/-- Only the line of a return asks for one. -/
theorem mnemonic {outputs : List ValueId} (h : line.Asks annotated? operands (.ret outputs)) :
    line.mnemonic = "return" := by
  have horigin := line.instruction?_origin
  cases h with
  | ret hline => rwa [hline] at horigin

end Line.Asks

theorem Line.emit_eq_done : line.emit p operands annotated? s = .done v? s' ↔
    ∃ order, line.Asks annotated? operands order ∧
      call p line.offset order.give s = .done v? s' := by
  rw [line.emit_eq, Edit.bind_eq_done]
  constructor
  · rintro ⟨order, _, hcheck, hcall⟩
    obtain ⟨horder, rfl⟩ := check_done hcheck
    exact ⟨order, Line.order_eq_ok.1 horder, hcall⟩
  · rintro ⟨order, hasks, hcall⟩
    exact ⟨order, s, by rw [Line.order_eq_ok.2 hasks, check_ok], hcall⟩

/-! ## Names -/

/-- What a line does to the names: a result gets the name of the line, which is not in use, and has
the annotated type. A line without a result has no name. -/
inductive Line.Binds (line : Line) (s : Store) (names : Names) (annotated? : Option Ty) :
    Option ValueId → Names → Prop
  | nothing (hresult : line.result? = none) : Binds line s names annotated? none names
  | value {v : ValueId} {name : String} {ty : Ty} (hresult : line.result? = some name)
      (hty : s.valueTy v = .ok ty) (hannotated : ∀ annotated ∈ annotated?, annotated = ty)
      (hfree : names.lookup name = none) :
      Binds line s names annotated? (some v) ((name, v) :: names)

theorem Line.binds_of_bindResult (h : line.bindResult names annotated? v? s = .done names' s') :
    line.Binds s names annotated? v? names' ∧ s' = s := by
  unfold Line.bindResult at h
  cases v? with
  | none =>
    cases hresult : line.result? with
    | some name =>
      rw [hresult] at h
      cases h
    | none =>
      rw [hresult] at h
      cases h
      exact ⟨.nothing hresult, rfl⟩
  | some v =>
    cases hresult : line.result? with
    | none =>
      rw [hresult] at h
      cases h
    | some name =>
      rw [hresult] at h
      obtain ⟨ty, s₁, hread, hbind⟩ := Edit.bind_eq_done.1 h
      obtain ⟨hty, rfl⟩ := Edit.read_eq_done.1 hread
      cases hsame : annotated?.filter (· ≠ ty) with
      | some annotated =>
        rw [hsame] at hbind
        cases hbind
      | none =>
        rw [hsame] at hbind
        dsimp only at hbind
        split at hbind
        · cases hbind
        · next hfree =>
          cases hbind
          have hfree := Option.not_isSome_iff_eq_none.1 hfree
          refine ⟨.value hresult (lift_eq_ok.1 hty) ?_ hfree, rfl⟩
          simpa [Option.filter_eq_none_iff] using hsame

theorem Line.Binds.bindResult (h : line.Binds s names annotated? v? names') :
    line.bindResult names annotated? v? s = .done names' s := by
  cases h with
  | nothing hresult =>
    rw [Line.bindResult, hresult]
    rfl
  | @value v name ty hresult hty hannotated hfree =>
    have hread : (Edit.read fun s => s.valueTy v : Edit Store ReadError Ty) s = .done ty s :=
      Edit.read_done (lift_eq_ok.2 hty)
    have hsame : annotated?.filter (· ≠ ty) = none := by
      simpa [Option.filter_eq_none_iff] using hannotated
    rw [Line.bindResult, hresult]
    refine (Edit.bind_done hread).trans ?_
    rw [hsame, hfree]
    rfl

theorem Line.bindResult_eq_done : line.bindResult names annotated? v? s = .done names' s' ↔
    line.Binds s names annotated? v? names' ∧ s' = s :=
  ⟨Line.binds_of_bindResult, fun ⟨hbinds, hs⟩ => hs ▸ hbinds.bindResult⟩

/-- A line adds at most its result to the names. -/
theorem Line.Binds.mem (h : line.Binds s names annotated? v? names') :
    ∀ entry ∈ names', entry ∈ names ∨ v? = some entry.2 ∧ line.result? = some entry.1 := by
  cases h with
  | nothing => exact fun _ => .inl
  | value hresult =>
    intro entry hentry
    rcases List.mem_cons.1 hentry with rfl | hold
    · exact .inr ⟨rfl, hresult⟩
    · exact .inl hold

/-! ## Lines -/

/-- **The stages of a line.** -/
theorem Line.assemble_eq_done : line.assemble p names s = .done names' s' ↔
    ∃ operands annotated? order v?, line.operands.mapM (names.resolve line.offset) = .ok operands ∧
      line.ty?.mapM (fun name => readTy name line.offset) = .ok annotated? ∧
      line.Asks annotated? operands order ∧ call p line.offset order.give s = .done v? s' ∧
      line.Binds s' names annotated? v? names' := by
  constructor
  · intro h
    obtain ⟨operands, s₁, hresolve, hrest⟩ := Edit.bind_eq_done.1 h
    obtain ⟨hoperands, rfl⟩ := check_done hresolve
    obtain ⟨annotated?, s₂, hty, hbuild⟩ := Edit.bind_eq_done.1 hrest
    obtain ⟨hannotated, rfl⟩ := check_done hty
    obtain ⟨v?, s₃, hemit, hbind⟩ := Edit.bind_eq_done.1 hbuild
    obtain ⟨order, hasks, hcall⟩ := Line.emit_eq_done.1 hemit
    obtain ⟨hbinds, rfl⟩ := Line.bindResult_eq_done.1 hbind
    exact ⟨operands, annotated?, order, v?, hoperands, hannotated, hasks, hcall, hbinds⟩
  · rintro ⟨operands, annotated?, order, v?, hoperands, hannotated, hasks, hcall, hbinds⟩
    rw [Line.assemble, hoperands, Edit.bind_done (check_ok operands s), hannotated,
      Edit.bind_done (check_ok annotated? s),
      Edit.bind_done (Line.emit_eq_done.2 ⟨order, hasks, hcall⟩)]
    exact Line.bindResult_eq_done.2 ⟨hbinds, rfl⟩

/-- A line adds at most its result to the names. -/
theorem Line.assemble_names (h : line.assemble p names s = .done names' s') :
    ∀ entry ∈ names', entry ∈ names ∨ line.result? = some entry.1 := by
  obtain ⟨_, _, _, _, -, -, -, -, hbinds⟩ := Line.assemble_eq_done.1 h
  exact fun entry hentry => (hbinds.mem entry hentry).imp_right And.right

/-- Builds the operations of lines in order, and gives the names after them. -/
def namesAfter (p : Program) (lines : List Line) (names : Names) : Edit Store ReadError Names :=
  lines.foldlM (fun names line => line.assemble p names) names

/-- **Lines are built one after another.** -/
theorem assembleLines_eq (p : Program) (lines : List Line) (names : Names) :
    assembleLines p lines names = do
      let _ ← namesAfter p lines names
      return () := by
  induction lines generalizing names with
  | nil => rfl
  | cons line rest ih =>
    rw [assembleLines, namesAfter, List.foldlM_cons, bind_assoc]
    exact congrArg _ (funext fun names => ih names)

theorem namesAfter_append (p : Program) (lines lines' : List Line) (names : Names) :
    namesAfter p (lines ++ lines') names = namesAfter p lines names >>= namesAfter p lines' := by
  rw [namesAfter, List.foldlM_append]
  rfl

theorem namesAfter_singleton (p : Program) (line : Line) (names : Names) :
    namesAfter p [line] names = line.assemble p names := by
  rw [namesAfter, List.foldlM_cons]
  exact bind_pure _

/-! ## Listings -/

/-- Creates the program of a header, and gives the names of its parameters. -/
def Header.create (header : Header) : Edit Store ReadError (Program × Names) := do
  let tys ← check (header.params.mapM fun (_, ty) => readTy ty 0)
  let p ← Edit.update fun s => Program.create s header.name tys
  let inputs ← Edit.read fun s => .ok (p.inputs s)
  let names ← check (nameParams ((header.params.map (·.1)).zip inputs) [])
  return (p, names)

/-- **The header comes first**, and then the lines. -/
theorem assemble_eq (listing : Listing) : listing.assemble = do
    let begun ← listing.header.create
    let _ ← namesAfter begun.1 listing.lines begun.2
    return begun.1 := by
  simp only [assemble, Header.create, assembleLines_eq, bind_assoc, pure_bind]

theorem assemble_eq_done {listing : Listing} :
    listing.assemble s = .done p s' ↔ ∃ names names' s₁,
      listing.header.create s = .done (p, names) s₁ ∧
        namesAfter p listing.lines names s₁ = .done names' s' := by
  rw [assemble_eq]
  constructor
  · intro h
    obtain ⟨⟨p', names⟩, s₁, hcreate, hrest⟩ := Edit.bind_eq_done.1 h
    obtain ⟨names', s₂, hlines, hpure⟩ := Edit.bind_eq_done.1 hrest
    cases hpure
    exact ⟨names, names', s₁, hcreate, hlines⟩
  · rintro ⟨names, names', s₁, hcreate, hlines⟩
    exact Edit.bind_eq_done.2 ⟨_, _, hcreate, Edit.bind_eq_done.2 ⟨_, _, hlines, rfl⟩⟩

theorem assemble_eq_failed {listing : Listing} {e : ReadError} :
    listing.assemble s = .failed e s' ↔ listing.header.create s = .failed e s' ∨
      ∃ p names s₁, listing.header.create s = .done (p, names) s₁ ∧
        namesAfter p listing.lines names s₁ = .failed e s' := by
  rw [assemble_eq, Edit.bind_eq_failed]
  refine or_congr_right ⟨?_, ?_⟩
  · rintro ⟨⟨p, names⟩, s₁, hcreate, hrest⟩
    rcases Edit.bind_eq_failed.1 hrest with hlines | ⟨_, _, -, hpure⟩
    · exact ⟨p, names, s₁, hcreate, hlines⟩
    · cases hpure
  · rintro ⟨p, names, s₁, hcreate, hlines⟩
    exact ⟨(p, names), s₁, hcreate, Edit.bind_failed hlines⟩

end Listing

theorem Program.read_listing {text : String} {listing : Listing}
    (h : Listing.ofText text = .ok listing) (s : Store) :
    Program.read text s = listing.assemble s := by
  rw [Program.read, h]
  rfl

end Mba
