import Mba.Proofs.Listing.Printing
import Mba.Proofs.Listing.Stages

/-!
# A printed program is built again

Building the listing that a program is printed as gives a copy of the program, in whatever store it
is built: each line is built as the copy of its operation, and each value gets the number that it is
printed with, also where it is another value of the new store.

Results:
* `Names.Follow.resolve`, `nameParams_ok`: names that follow a numbering are found by their numbers,
  and the parameters of a printed program are named that way.
* `exists_asks`: the line of a well-typed operation asks for the call that makes its copy.
* `Rebuilt.emitted`: emitting the copy of an operation keeps both stores in step.
* `Rebuilt.assemble`: building a line keeps both stores in step.
* `Rebuilt.assembleLines`: building the lines of a program copies its operations.
* `assemble_ok`, `read_print`: the listing is built, and the text is read, as a copy.
-/

namespace Mba

open Listing

/-! ## Names -/

namespace Listing

theorem toString_inj {i j : Nat} : toString i = toString j ↔ i = j := by
  refine ⟨fun h => ?_, congrArg _⟩
  have hdigits : Nat.toDigits 10 i = Nat.toDigits 10 j := by
    rw [← Nat.toList_repr, ← Nat.toList_repr]
    exact congrArg String.toList h
  rw [← Nat.ofDigitChars_ten_toDigits (n := i), hdigits, Nat.ofDigitChars_ten_toDigits]

/-- The values with numbers are known by them, and no others are. -/
structure Names.Follow (names : Names) (n : Numbering) : Prop where
  known : ∀ i : Nat, i < n.next → ∃ v, names.lookup (toString i) = some v ∧ n.number? v = some i
  free : ∀ i : Nat, n.next ≤ i → names.lookup (toString i) = none

variable {names : Names} {n : Numbering}

theorem Names.follow_nil : Names.Follow [] .start where
  known _ hi := absurd hi (Nat.not_lt_zero _)
  free _ _ := rfl

/-- A value without a number gets the next one for a name. -/
theorem Names.Follow.cons (h : names.Follow n) {v : ValueId} (hv : n.number? v = none) :
    Names.Follow ((toString n.next, v) :: names) (n.assign v) := by
  have hother : ∀ i : Nat, i ≠ n.next →
      List.lookup (toString i) ((toString n.next, v) :: names) = names.lookup (toString i) := by
    intro i hi
    have hne : (toString i == toString n.next) = false :=
      beq_eq_false_iff_ne.2 (mt toString_inj.1 hi)
    simp only [List.lookup_cons, hne]
  constructor
  case known =>
    intro i hi
    rcases Nat.lt_succ_iff_lt_or_eq.1 hi with hold | rfl
    · obtain ⟨w, hlookup, hw⟩ := h.known i hold
      refine ⟨w, (hother i (Nat.ne_of_lt hold)).trans hlookup, ?_⟩
      rw [n.number?_assign, if_neg, hw]
      rintro rfl
      rw [hv] at hw
      cases hw
    · exact ⟨v, List.lookup_cons_self, (n.number?_assign v v).trans (if_pos rfl)⟩
  case free =>
    intro i hi
    rw [hother i (Nat.ne_of_gt hi)]
    exact h.free i (Nat.le_of_succ_le hi)

/-- **Names that follow a numbering are found by their numbers.** -/
theorem Names.Follow.resolve (h : names.Follow n) (offset : Nat) {operands : List Nat}
    (hoperands : ∀ i ∈ operands, i < n.next) :
    ∃ vs, (operands.map toString).mapM (names.resolve offset) = .ok vs ∧
      Store.Numbers n vs operands := by
  induction operands with
  | nil => exact ⟨[], rfl, rfl⟩
  | cons i operands ih =>
    obtain ⟨v, hlookup, hv⟩ := h.known i (hoperands i List.mem_cons_self)
    obtain ⟨vs, hvs, hnumbers⟩ := ih fun j hj => hoperands j (List.mem_cons_of_mem _ hj)
    have hresolve : names.resolve offset (toString i) = .ok v := by
      rw [Names.resolve, hlookup]
    refine ⟨v :: vs, ?_, ?_⟩
    · rw [List.map_cons, List.mapM_cons, hresolve, hvs]
      rfl
    · rw [Store.Numbers, List.map_cons, List.map_cons, hv, hnumbers]

theorem readTy_name (ty : Ty) (offset : Nat) : readTy ty.name offset = .ok ty := by
  rw [readTy, Ty.ofName?_name]

theorem readTy?_name (ty? : Option Ty) (offset : Nat) :
    (ty?.map Ty.name).mapM (fun name => readTy name offset) = .ok ty? := by
  cases ty? with
  | none => rfl
  | some ty =>
    show some <$> readTy ty.name offset = _
    rw [readTy_name]
    rfl

theorem readTys_paramsFrom (next : Nat) (tys : List Ty) :
    (paramsFrom next tys).mapM (fun (_, ty) => readTy ty 0) = .ok tys := by
  induction tys generalizing next with
  | nil => rfl
  | cons ty tys ih =>
    rw [paramsFrom, List.mapM_cons, ih]
    dsimp only
    rw [readTy_name]
    rfl

/-- **The parameters of a printed program are named in order.** -/
theorem nameParams_ok (h : names.Follow n) {tys : List Ty} {vs : List ValueId}
    (hlength : vs.length = tys.length) (hdistinct : vs.Pairwise (· ≠ ·))
    (hnew : ∀ v ∈ vs, n.number? v = none) :
    ∃ names', nameParams (((paramsFrom n.next tys).map (·.1)).zip vs) names = .ok names' ∧
      names'.Follow (n.assignAll vs) := by
  induction tys generalizing n names vs with
  | nil =>
    obtain rfl := List.length_eq_zero_iff.1 hlength
    exact ⟨names, rfl, h⟩
  | cons ty tys ih =>
    obtain ⟨v, vs, rfl⟩ := List.exists_cons_of_length_eq_add_one hlength
    obtain ⟨hne, hdistinct⟩ := List.pairwise_cons.1 hdistinct
    have hnew' : ∀ w ∈ vs, (n.assign v).number? w = none := by
      intro w hw
      rw [n.number?_assign, if_neg (hne w hw), hnew w (List.mem_cons_of_mem _ hw)]
    obtain ⟨names', hdone, hfollow⟩ :=
      ih (h.cons (hnew v List.mem_cons_self)) (Nat.succ.inj hlength) hdistinct hnew'
    refine ⟨names', ?_, hfollow⟩
    rw [paramsFrom, List.map_cons, List.zip_cons_cons, nameParams]
    dsimp only
    rw [h.free n.next (Nat.le_refl _)]
    exact hdone

/-! ## Instructions -/

theorem instruction?_unary {line : Line} {op : UnaryOp} (hliteral : line.literal? = none)
    (hmnemonic : line.mnemonic = op.mnemonic) : line.instruction? = some (.unary op) := by
  have hret : op.mnemonic ≠ "return" := by cases op <;> decide
  rw [Line.instruction?, hliteral, hmnemonic]
  dsimp only
  rw [if_neg hret, op.ofMnemonic?_mnemonic]
  rfl

theorem instruction?_binary {line : Line} {op : BinaryOp} (hliteral : line.literal? = none)
    (hmnemonic : line.mnemonic = op.mnemonic) : line.instruction? = some (.binary op) := by
  have hret : op.mnemonic ≠ "return" := by cases op <;> decide
  have hunary : UnaryOp.ofMnemonic? op.mnemonic = none := by cases op <;> decide
  rw [Line.instruction?, hliteral, hmnemonic]
  dsimp only
  rw [if_neg hret, hunary, op.ofMnemonic?_mnemonic]
  rfl

theorem instruction?_compare {line : Line} {test : Comparison} (hliteral : line.literal? = none)
    (hmnemonic : line.mnemonic = test.mnemonic) : line.instruction? = some (.compare test) := by
  have hret : test.mnemonic ≠ "return" := by cases test <;> decide
  have hunary : UnaryOp.ofMnemonic? test.mnemonic = none := by cases test <;> decide
  have hbinary : BinaryOp.ofMnemonic? test.mnemonic = none := by cases test <;> decide
  rw [Line.instruction?, hliteral, hmnemonic]
  dsimp only
  rw [if_neg hret, hunary, hbinary, test.ofMnemonic?_mnemonic]
  rfl

end Listing

namespace Store

variable {s s' : Store} {p p' : Program} {n n' : Numbering} {d d' : Operation}
  {operands : List Nat} {line : Line} {names : Names}

/-! ## Types -/

theorem Numbers.lt {vs : List ValueId} (h : Numbers n vs operands) (hn : n.Bounded) :
    ∀ i ∈ operands, i < n.next := by
  intro i hi
  have hmem : some i ∈ vs.map n.number? := by
    rw [h]
    exact List.mem_map_of_mem hi
  obtain ⟨v, -, hv⟩ := List.mem_map.1 hmem
  exact hn v i hv

theorem Numbers.exists_number? {vs : List ValueId} (h : Numbers n vs operands) {v : ValueId}
    (hv : v ∈ vs) : ∃ i, n.number? v = some i := by
  have hmem : n.number? v ∈ operands.map some := by
    rw [← h]
    exact List.mem_map_of_mem hv
  obtain ⟨i, -, hi⟩ := List.mem_map.1 hmem
  exact ⟨i, hi.symm⟩

/-- Values with one number have one type. -/
def SameTys (n n' : Numbering) (s s' : Store) : Prop :=
  ∀ v v' i, n.number? v = some i → n'.number? v' = some i →
    s'.values[v'.index]?.map (·.ty) = s.values[v.index]?.map (·.ty)

theorem sameTys_start (s s' : Store) : SameTys .start .start s s' :=
  Numbering.relates_start

/-- Inputs have one type with a number when they get their numbers in order. -/
theorem SameTys.assignAll (h : SameTys n n' s s') (hn : n.InStep n') {tys : List Ty}
    {vs vs' : List ValueId} (htys : vs.map s.valueTy = tys.map .ok)
    (htys' : vs'.map s'.valueTy = tys.map .ok) :
    SameTys (n.assignAll vs) (n'.assignAll vs') s s' := by
  refine Numbering.Relates.assignAll h hn ?_
  induction tys generalizing vs vs' with
  | nil =>
    rw [List.map_eq_nil_iff.1 htys, List.map_eq_nil_iff.1 htys']
    exact .nil
  | cons ty tys ih =>
    obtain ⟨v, vs, rfl, hv, hmore⟩ := List.map_eq_cons_iff.1 htys
    obtain ⟨v', vs', rfl, hv', hmore'⟩ := List.map_eq_cons_iff.1 htys'
    refine .cons ?_ (ih hmore hmore')
    rw [valueTy_eq_ok_iff.1 hv, valueTy_eq_ok_iff.1 hv']

theorem SameTys.after (h : SameTys n n' s s') (hn : n.InStep n') (hreread : d.RereadAs d')
    (hty : ∀ v v', d.result? = some v → d'.result? = some v' →
      s'.values[v'.index]?.map (·.ty) = s.values[v.index]?.map (·.ty)) :
    SameTys (n.after d) (n'.after d') s s' :=
  Numbering.Relates.after h hn hreread hty

theorem SameTys.operandTys {vs vs' : List ValueId} (h : SameTys n n' s s')
    (hnumbers : Numbers n vs operands) (hnumbers' : Numbers n' vs' operands) :
    s'.operandTys vs' = s.operandTys vs := by
  induction operands generalizing vs vs' with
  | nil => rw [hnumbers.eq_nil, hnumbers'.eq_nil]; rfl
  | cons i operands ih =>
    obtain ⟨v, vs, rfl, hi, hmore⟩ := hnumbers.eq_cons
    obtain ⟨v', vs', rfl, hi', hmore'⟩ := hnumbers'.eq_cons
    have htail := ih hmore hmore'
    rw [Store.operandTys, Store.operandTys] at htail ⊢
    rw [List.filterMap_cons, List.filterMap_cons, h v v' i hi hi', htail]

/-- **A copied operation is well typed.** -/
theorem WellTyped.copy {opcode : Opcode} {vs vs' : List ValueId} {ty? : Option Ty}
    (h : WellTyped s opcode vs ty?) (hnumbers : Numbers n vs operands)
    (hnumbers' : Numbers n' vs' operands) (htys : SameTys n n' s s') :
    WellTyped s' (opcode.reread ty?) vs' ty? := by
  cases h with
  | const bits w =>
    obtain rfl := numbers_nil hnumbers
    obtain rfl := hnumbers'.eq_nil
    exact .const _ w
  | fconst bits =>
    obtain rfl := numbers_nil hnumbers
    obtain rfl := hnumbers'.eq_nil
    exact .fconst _
  | unary hv haccepts =>
    obtain ⟨i, more, rfl, hi, hmore⟩ := numbers_cons hnumbers
    obtain rfl := numbers_nil hmore
    obtain ⟨v', more', rfl, hi', hmore'⟩ := hnumbers'.eq_cons
    obtain rfl := hmore'.eq_nil
    exact .unary ((htys _ _ i hi hi').trans hv) haccepts
  | binary hv₁ hv₂ haccepts =>
    obtain ⟨i, more, rfl, hi, hmore⟩ := numbers_cons hnumbers
    obtain ⟨j, more, rfl, hj, hmore⟩ := numbers_cons hmore
    obtain rfl := numbers_nil hmore
    obtain ⟨v₁', more', rfl, hi', hmore'⟩ := hnumbers'.eq_cons
    obtain ⟨v₂', more', rfl, hj', hmore'⟩ := hmore'.eq_cons
    obtain rfl := hmore'.eq_nil
    exact .binary ((htys _ _ i hi hi').trans hv₁) ((htys _ _ j hj hj').trans hv₂) haccepts
  | compare test hv₁ hv₂ =>
    obtain ⟨i, more, rfl, hi, hmore⟩ := numbers_cons hnumbers
    obtain ⟨j, more, rfl, hj, hmore⟩ := numbers_cons hmore
    obtain rfl := numbers_nil hmore
    obtain ⟨v₁', more', rfl, hi', hmore'⟩ := hnumbers'.eq_cons
    obtain ⟨v₂', more', rfl, hj', hmore'⟩ := hmore'.eq_cons
    obtain rfl := hmore'.eq_nil
    exact .compare test ((htys _ _ i hi hi').trans hv₁) ((htys _ _ j hj hj').trans hv₂)
  | ret hvs =>
    have hlength : vs'.length = vs.length := by
      have := congrArg List.length hnumbers
      have := congrArg List.length hnumbers'
      simp only [List.length_map] at *
      omega
    refine .ret ?_
    rw [htys.operandTys hnumbers hnumbers', hvs, hlength]

/-! ## One line -/

/-- **The line of a well-typed operation asks for the call that makes its copy.** -/
theorem exists_asks {vs' : List ValueId} {next : Nat} (hline : line.unplaced = d.line operands next)
    (htyped : WellTyped s d.opcode d.operands d.resultTy?)
    (hnumbers : Numbers n d.operands operands)
    (hwell : WellTyped s' (d.opcode.reread d.resultTy?) vs' d.resultTy?) :
    ∃ order : Builder.Call, line.Asks d.resultTy? vs' order ∧ order.operands = vs' ∧
      order.Makes s' (d.opcode.reread d.resultTy?) d.resultTy? := by
  have hmnemonic : line.mnemonic = d.opcode.mnemonic := congrArg Line.mnemonic hline
  have hliteral : line.literal? = d.literal? := congrArg Line.literal? hline
  have hcount : line.operands.length = d.operands.length := by
    have hoperands : line.operands = operands.map toString := congrArg Line.operands hline
    have hlength := congrArg List.length hnumbers
    rw [List.length_map, List.length_map] at hlength
    rw [hoperands, List.length_map, hlength]
  obtain ⟨opcode, vs, ty?, result?, parent?⟩ := d
  -- The operation gives the opcode and the type, its copy the values that are read.
  cases htyped with
  | const bits w =>
    have hwell : WellTyped s' (.const (w.ofInt (w.signed bits))) vs' (some (.int w)) := hwell
    cases hwell
    have hinstruction : line.instruction? = some (.int (w.signed bits)) := by
      rw [Line.instruction?, hliteral]
      rfl
    have hfits : w.signed (w.ofInt (w.signed bits)) = w.signed bits := by
      rw [w.ofInt_signed, w.signed_wrap]
    refine ⟨.int (.int w) (w.signed bits), .int hinstruction hcount rfl ?_, rfl, .int w _⟩
    rintro _ ⟨⟩
    exact hfits
  | fconst bits =>
    have hwell : WellTyped s' (.fconst (Double.canonical ⟨bits⟩).bits) vs' (some .double) := hwell
    cases hwell
    have hinstruction : line.instruction? = some (.double (Double.canonical ⟨bits⟩)) := by
      rw [Line.instruction?, hliteral]
      rfl
    exact ⟨_, .double hinstruction hcount, rfl, .double _⟩
  | @unary op _ ty =>
    have hwell : WellTyped s' (.unary op) vs' (some ty) := hwell
    cases hwell with
    | unary hv haccepts =>
      exact ⟨_, .unary (instruction?_unary hliteral hmnemonic), rfl, .unary hv haccepts⟩
  | @binary op _ _ ty =>
    have hwell : WellTyped s' (.binary op) vs' (some ty) := hwell
    cases hwell with
    | binary hv₁ hv₂ haccepts =>
      exact ⟨_, .binary (instruction?_binary hliteral hmnemonic), rfl, .binary hv₁ hv₂ haccepts⟩
  | compare test =>
    have hwell : WellTyped s' (.compare test) vs' (some .bool) := hwell
    cases hwell with
    | compare _ hv₁ hv₂ =>
      exact ⟨_, .compare (instruction?_compare hliteral hmnemonic), rfl, .compare test hv₁ hv₂⟩
  | ret =>
    have hwell : WellTyped s' .ret vs' none := hwell
    cases hwell with
    | ret hvs =>
      have hinstruction : line.instruction? = some .ret := by
        rw [Line.instruction?, hliteral, hmnemonic]
        rfl
      exact ⟨_, .ret hinstruction, rfl, .ret hvs⟩

/-- The result of a copied operation is known by its number. -/
theorem exists_binds (h : names.Follow n') {annotated? : Option Ty}
    (hline : line.result? = d'.result?.map fun _ => toString n'.next)
    (hty : ∀ v, d'.result? = some v →
      ∃ ty, annotated? = some ty ∧ s'.values[v.index]?.map (·.ty) = some ty)
    (hnew : ∀ v, d'.result? = some v → n'.number? v = none) :
    ∃ names', line.Binds s' names annotated? d'.result? names' ∧ names'.Follow (n'.after d') := by
  cases hresult : d'.result? with
  | none =>
    rw [hresult] at hline
    refine ⟨names, .nothing hline, ?_⟩
    rwa [Numbering.after, hresult]
  | some v =>
    rw [hresult] at hline
    obtain ⟨ty, rfl, hv⟩ := hty v hresult
    refine ⟨(toString n'.next, v) :: names, .value hline (valueTy_eq_ok_iff.2 hv) ?_
      (h.free n'.next (Nat.le_refl _)), ?_⟩
    · rintro _ ⟨⟩
      rfl
    · rw [Numbering.after, hresult]
      exact h.cons (hnew v hresult)

/-! ## Stores in step -/

/-- The second store has the operations and the arguments of the first one. -/
structure Extends (s s' : Store) : Prop where
  ops : ∀ (i : Nat) (d : Operation), s.ops[i]? = some d → s'.ops[i]? = some d
  args : ∀ b, s'.args b = s.args b
  argTys : ∀ b, s'.argTys b = s.argTys b

theorem Extends.refl (s : Store) : Extends s s :=
  ⟨fun _ _ hd => hd, fun _ => rfl, fun _ => rfl⟩

theorem Extends.trans {s'' : Store} (h : Extends s s') (h' : Extends s' s'') : Extends s s'' :=
  ⟨fun i d hd => h'.ops i d (h.ops i d hd), fun b => (h'.args b).trans (h.args b),
    fun b => (h'.argTys b).trans (h.argTys b)⟩

theorem Emitted.extends {b : BlockId} {listing : List OpId} {draft : Draft}
    (h : s.Emitted b listing draft s') : Extends s s' :=
  ⟨fun _ _ hd => h.ops_of_some hd, h.args, h.argTys⟩

/-- The state of building a listing: as many values have numbers in the second program as in the
first one, of the same types, and they are known by their numbers. -/
structure Rebuilt (s : Store) (n : Numbering) (s' : Store) (p' : Program) (start : Nat)
    (done' : List OpId) (n' : Numbering) (names : Names) : Prop where
  built : s'.Built p' start done'
  inStep : n.InStep n'
  tys : SameTys n n' s s'
  defined : ∀ v i, n'.number? v = some i → s'.Defines p' done' v
  names : names.Follow n'

namespace Rebuilt

variable {start : Nat} {done' : List OpId}

theorem lt_of_number? (h : Rebuilt s n s' p' start done' n' names) {v : ValueId} {i : Nat}
    (hi : n'.number? v = some i) : v.index < s'.values.size :=
  of_decide_eq_true ((h.defined v i hi).isAllocated h.built.consistent.owned)

/-- The line of an operation is looked up as the call that makes its copy. -/
theorem exists_order (h : Rebuilt s n s' p' start done' n' names)
    (htyped : WellTyped s d.opcode d.operands d.resultTy?)
    (hnumbers : Numbers n d.operands operands) (hline : line.unplaced = d.line operands n.next) :
    ∃ order : Builder.Call, line.operands.mapM (names.resolve line.offset) = .ok order.operands ∧
      line.ty?.mapM (fun name => readTy name line.offset) = .ok d.resultTy? ∧
      line.Asks d.resultTy? order.operands order ∧ Numbers n' order.operands operands ∧
      order.Makes s' (d.opcode.reread d.resultTy?) d.resultTy? := by
  obtain ⟨vs', hresolve, hnumbers'⟩ := h.names.resolve line.offset fun i hi =>
    h.inStep.next ▸ hnumbers.lt h.inStep.bounded i hi
  have hwell' := htyped.copy hnumbers hnumbers' h.tys
  obtain ⟨order, hasks, rfl, hmakes⟩ := exists_asks hline htyped hnumbers hwell'
  refine ⟨order, ?_, ?_, hasks, hnumbers', hmakes⟩
  · have hoperands : line.operands = operands.map toString := congrArg Line.operands hline
    rw [hoperands]
    exact hresolve
  · have hty : line.ty? = d.resultTy?.map Ty.name := congrArg Line.ty? hline
    rw [hty]
    exact readTy?_name d.resultTy? line.offset

/-- **Emitting the copy of an operation** keeps both stores in step. -/
theorem emitted {s'' : Store} {draft : Draft} {names' : Names} {o : OpId} (hs : s.Owned)
    (h : Rebuilt s n s' p' start done' n' names) (entry : s.ops[o.index]? = some d)
    (he : s'.Emitted p'.entry (done' ++ [⟨s'.ops.size⟩]) draft s'')
    (hreread : d.RereadAs (draft.placed s' p'.entry))
    (hnumbers : Numbers n' draft.operands operands)
    (hwell : WellTyped s' draft.opcode draft.operands draft.resultTy?)
    (hnames : names'.Follow (n'.after (draft.placed s' p'.entry))) :
    Rebuilt s (n.after d) s'' p' start (done' ++ [⟨s'.ops.size⟩])
      (n'.after (draft.placed s' p'.entry)) names' := by
  constructor
  case built =>
    refine h.built.emitted (fun v hv => ?_) hwell he
    obtain ⟨i, hi⟩ := hnumbers.exists_number? hv
    exact h.defined v i hi
  case inStep => exact h.inStep.after hreread
  case tys =>
    have hold : SameTys n n' s s'' := by
      intro v v' i hi hi'
      rw [he.values_of_lt (h.lt_of_number? hi')]
      exact h.tys v v' i hi hi'
    refine hold.after h.inStep hreread fun v v' hv hv' => ?_
    obtain ⟨ty, hty, hvalue⟩ := hs.result_origin o v ((result?_eq entry).trans hv)
    obtain ⟨-, ty', hty', hvalue'⟩ := he.result_placed hv'
    have hsame : draft.resultTy? = d.resultTy? := hreread.resultTy?
    rw [resultTy?_eq entry, ← hsame, hty'] at hty
    cases hty
    rw [hvalue', hvalue]
    rfl
  case defined =>
    intro v i hi
    have hresult : s''.result? ⟨s'.ops.size⟩ = (draft.placed s' p'.entry).result? :=
      result?_eq he.entry
    rw [defines_append_singleton, hresult]
    rcases Numbering.number?_after hi with hnew | hold
    · exact .inr hnew
    · exact .inl (he.defines_of_defines (fun _ ho => ho) (h.defined v i hold))
  case names => exact hnames

/-- **Building the line of an operation** copies the operation, and keeps both stores in step. -/
theorem assemble (hs : s.Owned) (h : Rebuilt s n s' p' start done' n' names) {o : OpId}
    (entry : s.ops[o.index]? = some d) (htyped : s.typeDefect? d = none)
    (hnumbers : Numbers n d.operands operands) (hline : line.unplaced = d.line operands n.next) :
    ∃ s'' d' names', line.assemble p' names s' = .done names' s'' ∧
      s''.ops[s'.ops.size]? = some d' ∧ d.RereadAs d' ∧ Numbers n' d'.operands operands ∧
      Rebuilt s (n.after d) s'' p' start (done' ++ [⟨s'.ops.size⟩]) (n'.after d') names' ∧
      Extends s' s'' := by
  obtain ⟨order, hresolve, hannotated, hasks, hnumbers', hmakes⟩ :=
    h.exists_order (typeDefect?_eq_none_iff_wellTyped.1 htyped) hnumbers hline
  obtain ⟨target, htarget, hops⟩ := ops_eq_ok_iff.1 h.built.listed
  obtain ⟨s'', hgive, he⟩ := hmakes.give_eq_done h.built.consistent (.atEnd p'.entry) htarget
    (congrArg (· ++ _) hops.symm) []
  let d' := Draft.placed ⟨d.opcode.reread d.resultTy?, order.operands, d.resultTy?, none⟩ s' p'.entry
  have hreread : d.RereadAs d' := by
    refine ⟨rfl, rfl, ?_⟩
    have hsome := hs.result_isSome o
    rw [result?_eq entry, resultTy?_eq entry] at hsome
    rw [hsome]
    exact Option.isSome_map
  have hbound : line.result? = d'.result?.map fun _ => toString n'.next := by
    have hsome := hreread.result?
    have hname : line.result? = d.result?.map fun _ => toString n.next :=
      congrArg Line.result? hline
    rw [hname, h.inStep.next]
    cases hv : d.result? <;> cases hv' : d'.result? <;> simp [hv, hv'] at hsome ⊢
  have hnew : ∀ v, d'.result? = some v → n'.number? v = none := by
    intro v hv
    obtain ⟨rfl, -⟩ := he.result_placed hv
    rw [Option.eq_none_iff_forall_ne_some]
    exact fun i hi => Nat.lt_irrefl _ (h.lt_of_number? hi)
  obtain ⟨names', hbinds, hfollow⟩ :=
    exists_binds h.names hbound (fun v hv => (he.result_placed hv).2) hnew
  exact ⟨s'', d', names', Line.assemble_eq_done.2 ⟨order.operands, d.resultTy?, order, _, hresolve,
    hannotated, hasks, call_done line.offset hgive, hbinds⟩, he.entry, hreread, hnumbers',
    h.emitted hs entry he hreread hnumbers' hmakes.wellTyped hfollow, he.extends⟩

end Rebuilt

/-! ## Whole programs -/

/-- **Building the lines of operations** copies the operations, in order. -/
theorem Rebuilt.assembleLines {start : Nat} {done' : List OpId} (hs : s.Owned)
    {ops done : List OpId} {lines found : List Line} (hlines : Lists s n ops lines)
    (hflow : s.Flow p done ops) (hfound : found.map Line.unplaced = lines)
    (h : Rebuilt s n s' p' start done' n' names) :
    ∃ s'' ops', assembleLines p' found names s' = .done () s'' ∧
      s''.Built p' start (done' ++ ops') ∧ Copies s s'' n n' ops ops' ∧ Extends s' s'' := by
  induction hlines generalizing done found s' done' n' names with
  | nil n =>
    obtain rfl := List.map_eq_nil_iff.1 hfound
    exact ⟨s', [], rfl, by rw [List.append_nil]; exact h.built, .nil n n', .refl s'⟩
  | @cons n o rest lines d operands entry numbers more ih =>
    obtain ⟨⟨d₁, hd, hfits⟩, hrest⟩ := hflow
    obtain rfl : d = d₁ := Option.some.inj (entry.symm.trans hd)
    obtain ⟨line, found, rfl, hline, hfound⟩ := List.map_eq_cons_iff.1 hfound
    obtain ⟨s₁, d', names₁, hdone, hentry', hreread, hnumbers', h₁, hextends₁⟩ :=
      h.assemble hs entry hfits.typed numbers hline
    obtain ⟨s'', ops', hlater, hbuilt, hcopies, hextends⟩ := ih hrest hfound h₁
    refine ⟨s'', ⟨s'.ops.size⟩ :: ops', (Edit.bind_done hdone).trans hlater, ?_,
      .cons entry (hextends.ops _ _ hentry') hreread numbers hnumbers' hcopies,
      hextends₁.trans hextends⟩
    rwa [List.append_assoc, List.singleton_append] at hbuilt

/-- A program without operations, whose inputs have the types of those of another one. -/
theorem rebuilt_create (hs : s.Owned) (p : Program) {s₁ : Store} (hs₁ : s₁.Consistent)
    {names : Names} (hnames : names.Follow (Numbering.start.assignAll
      (Program.inputs ⟨p.name, ⟨s₁.blocks.size⟩⟩ (s₁.createBlock (s.argTys p.entry) []).2))) :
    Rebuilt s (Numbering.start.assignAll (p.inputs s)) (s₁.createBlock (s.argTys p.entry) []).2
      ⟨p.name, ⟨s₁.blocks.size⟩⟩ s₁.ops.size []
      (Numbering.start.assignAll
        (Program.inputs ⟨p.name, ⟨s₁.blocks.size⟩⟩ (s₁.createBlock (s.argTys p.entry) []).2))
      names := by
  have hbuilt := hs₁.built_create p.name (s.argTys p.entry)
  have hargTys : (s₁.createBlock (s.argTys p.entry) []).2.argTys ⟨s₁.blocks.size⟩ =
      s.argTys p.entry := by
    rw [argTys_createBlock, if_pos rfl]
  have htys := hs.valueTys_args p.entry
  have htys' := hbuilt.consistent.owned.valueTys_args ⟨s₁.blocks.size⟩
  rw [hargTys] at htys'
  constructor
  case built => exact hbuilt
  case inStep =>
    refine Numbering.inStep_start.assignAll ?_
    rw [Program.inputs, Program.inputs, hs.length_args, hbuilt.consistent.owned.length_args,
      hargTys]
  case tys => exact (sameTys_start _ _).assignAll Numbering.inStep_start htys htys'
  case defined =>
    intro v i hi
    rcases Numbering.mem_of_number?_assignAll hi with hmem | hstart
    · exact .inl hmem
    · rw [Numbering.number?_start] at hstart
      cases hstart
  case names => exact hnames

/-- **The listing that a program is printed as is built as a copy**, in any store. -/
theorem assemble_ok (hs : s.Owned) {ops : List OpId} (hops : p.ops s = .ok ops)
    (hflow : s.Flow p [] ops) {lines found : List Line}
    (hlines : Lists s (Numbering.start.assignAll (p.inputs s)) ops lines)
    (hfound : found.map Line.unplaced = lines) {s₁ : Store} (hs₁ : s₁.Consistent) :
    ∃ p' s' ops', Listing.assemble ⟨⟨p.name, paramsFrom 0 (s.argTys p.entry)⟩, found⟩ s₁ =
        .done p' s' ∧ s'.Built p' s₁.ops.size ops' ∧ CopyOf s p s' p' := by
  let tys := s.argTys p.entry
  let s₂ := (s₁.createBlock tys []).2
  let p' : Program := ⟨p.name, ⟨s₁.blocks.size⟩⟩
  have hinputs : p'.inputs s₂ = (List.range tys.length).map fun i => ⟨s₁.values.size + i⟩ := by
    rw [Program.inputs, args_createBlock, if_pos rfl]
  have hlength : (p'.inputs s₂).length = tys.length := by
    rw [hinputs, List.length_map, List.length_range]
  have hdistinct : (p'.inputs s₂).Pairwise (· ≠ ·) := by
    rw [hinputs, List.pairwise_map]
    refine List.nodup_range.imp fun hne heq => hne ?_
    have := congrArg ValueId.index heq
    exact Nat.add_left_cancel this
  obtain ⟨names, hnames, hfollow⟩ := nameParams_ok Names.follow_nil hlength hdistinct
    fun v _ => Numbering.number?_start v
  have hnames : nameParams (((paramsFrom 0 tys).map (·.1)).zip (p'.inputs s₂)) [] = .ok names :=
    hnames
  obtain ⟨s', ops', hdone, hbuilt, hcopies, hextends⟩ :=
    (rebuilt_create hs p hs₁ hfollow).assembleLines hs hlines hflow hfound
  refine ⟨p', s', ops', ?_, hbuilt, ?_⟩
  · have hcreate : (Edit.update fun s => Program.create s p.name tys : Edit Store ReadError Program)
        s₁ = .done p' s₂ := rfl
    have hread : (Edit.read fun s => .ok (p'.inputs s) : Edit Store ReadError (List ValueId)) s₂ =
        .done (p'.inputs s₂) s₂ := rfl
    rw [Listing.assemble]
    dsimp only
    rw [readTys_paramsFrom]
    refine (Edit.bind_done (check_ok tys s₁)).trans ?_
    refine (Edit.bind_done hcreate).trans ?_
    refine (Edit.bind_done hread).trans ?_
    rw [hnames]
    refine (Edit.bind_done (check_ok names s₂)).trans ?_
    exact Edit.bind_done hdone
  · refine ⟨rfl, ?_, ops, ops', hops, hbuilt.listed, ?_⟩
    · rw [hextends.argTys, argTys_createBlock, if_pos rfl]
    · have hinputs' : p'.inputs s' = p'.inputs s₂ := hextends.args p'.entry
      rw [hinputs']
      exact hcopies

/-- **The text of a program whose operations flow is read again as a copy of the program**, into any
store. -/
theorem read_print (hs : s.Owned) {ops : List OpId} (hops : p.ops s = .ok ops)
    (hflow : s.Flow p [] ops) (hname : Scanner.isIdentifier p.name.toList = true) :
    ∃ text, p.print s = .ok text ∧ ∀ s₁ : Store, s₁.Consistent →
      ∃ p' s' ops', Program.read text s₁ = .done p' s' ∧ s'.Built p' s₁.ops.size ops' ∧
        CopyOf s p s' p' := by
  obtain ⟨text, lines, found, hprint, hlines, hfound, hunplaced⟩ :=
    ofText_print hs hops hflow hname
  refine ⟨text, hprint, fun s₁ hs₁ => ?_⟩
  obtain ⟨p', s', ops', hassemble, hcopy⟩ := assemble_ok hs hops hflow hlines hunplaced hs₁
  refine ⟨p', s', ops', ?_, hcopy⟩
  rw [Program.read, hfound]
  exact (Edit.bind_done (check_ok _ s₁)).trans hassemble

end Store

end Mba
