import Mba.Program.Validation
import Mba.Proofs.Store.Reachable

/-!
# What validation decides

`Valid` states well-formedness of a program without the sets and reports that `Store.validate` works
with. The operations must *flow*: each fits behind those before it, which means that it is placed in
the program's block, reads only what they define, and is well typed.

Results:
* `contains_ofList`, `mem_distinct`, `nodup_distinct`: what the sets of the validation hold.
* `flow_append`: a list flows iff its front does and its back does behind the front.
* `mem_chainDefects`: what the chains of a program have that its operands do not.
* `chainDefects_eq_nil_iff`: for a program that flows, the chains are in order iff the values of the
  program are read by its own operations only.
* `validate_eq_nil_iff`: a validation passes iff the program is valid.
-/

namespace Mba

/-! ## Sets of numbers -/

namespace Table

variable {α : Type}

theorem contains_empty (i : Nat) : (empty : Table α).contains i = false := by
  rw [contains, get?_empty]
  rfl

theorem contains_insert (t : Table α) (i j : Nat) (a : α) :
    (t.insert i a).contains j = (i == j || t.contains j) := by
  rw [contains, get?_insert, contains]
  by_cases h : i = j <;> simp [h]

end Table

theorem Marks.contains_ofList (numbers : List Nat) (i : Nat) :
    (Marks.ofList numbers).contains i = true ↔ i ∈ numbers := by
  have hfold : ∀ (numbers : List Nat) (marks : Marks),
      (numbers.foldl (fun marks i => Table.insert marks i ()) marks).contains i = true ↔
        marks.contains i = true ∨ i ∈ numbers := by
    intro numbers
    induction numbers with
    | nil => simp
    | cons j rest ih =>
      intro marks
      rw [List.foldl_cons, ih, Table.contains_insert, List.mem_cons]
      grind
  rw [ofList, hfold, Table.contains_empty]
  simp

namespace Store

/-- What was found is what was marked, each number once, and both grow by the numbers passed. -/
theorem foldl_distinct (numbers : List Nat) {seen : Marks} {found : List Nat}
    (hseen : ∀ i, seen.contains i = true ↔ i ∈ found) (hnodup : found.Nodup) :
    let found' := (numbers.foldl (fun (seen, found) i =>
      if Table.contains seen i then (seen, found) else (Table.insert seen i (), i :: found))
      (seen, found)).2
    found'.Nodup ∧ ∀ i, i ∈ found' ↔ i ∈ found ∨ i ∈ numbers := by
  induction numbers generalizing seen found with
  | nil => simp [hnodup]
  | cons j rest ih =>
    simp only [List.foldl_cons, List.mem_cons]
    split
    · next h =>
      have hj := (hseen j).1 h
      obtain ⟨hnodup', hmem⟩ := ih hseen hnodup
      exact ⟨hnodup', fun i => by rw [hmem]; grind⟩
    · next h =>
      have hj : j ∉ found := fun hj => h ((hseen j).2 hj)
      have hseen' : ∀ i, (Table.insert seen j ()).contains i = true ↔ i ∈ j :: found := by
        intro i
        rw [Table.contains_insert, List.mem_cons, ← hseen]
        grind
      obtain ⟨hnodup', hmem⟩ := ih hseen' (List.nodup_cons.2 ⟨hj, hnodup⟩)
      exact ⟨hnodup', fun i => by rw [hmem, List.mem_cons]; grind⟩

theorem mem_distinct (numbers : List Nat) (i : Nat) : i ∈ distinct numbers ↔ i ∈ numbers := by
  rw [distinct, List.mem_reverse,
    (foldl_distinct numbers (by simp [Table.contains_empty]) List.nodup_nil).2]
  simp

theorem nodup_distinct (numbers : List Nat) : (distinct numbers).Nodup := by
  have hempty : ∀ i, (Table.empty : Marks).contains i = true ↔ i ∈ ([] : List Nat) := by
    simp [Table.contains_empty]
  exact List.pairwise_reverse.2 ((foldl_distinct numbers hempty List.nodup_nil).1.imp Ne.symm)

/-! ## Valid programs -/

/-- What is known behind operations of a program: its inputs and their results. -/
def Defines (s : Store) (p : Program) (done : List OpId) (v : ValueId) : Prop :=
  v ∈ p.inputs s ∨ ∃ o ∈ done, s.result? o = some v

/-- An operation that may stand behind the operations `done`. -/
structure Fits (s : Store) (p : Program) (done : List OpId) (d : Operation) : Prop where
  parent : d.parent? = some p.entry
  operands : ∀ v ∈ d.operands, s.Defines p done v
  typed : s.typeDefect? d = none

/-- Operations that may stand in order behind the operations `done`. -/
def Flow (s : Store) (p : Program) : List OpId → List OpId → Prop
  | _, [] => True
  | done, o :: rest =>
    (∃ d, s.ops[o.index]? = some d ∧ s.Fits p done d) ∧ Flow s p (done ++ [o]) rest

/-- The opcode of an operation. -/
def opcode? (s : Store) (o : OpId) : Option Opcode :=
  s.ops[o.index]?.map (·.opcode)

/-- A well-formed program with the given operations. -/
structure Valid (s : Store) (p : Program) (ops : List OpId) : Prop where
  listed : p.ops s = .ok ops
  flow : s.Flow p [] ops
  ending : ∃ body last, ops = body ++ [last] ∧ s.opcode? last = some .ret ∧
    ∀ o ∈ body, s.opcode? o ≠ some .ret
  /-- The values of the program are read by its operations only. -/
  closed : ∀ v use, s.Defines p ops v → s.slot? use = some v → use.user ∈ ops

variable {s : Store} {p : Program}

theorem ops_eq_ok_iff {ops : List OpId} :
    p.ops s = .ok ops ↔ ∃ d, s.blocks[p.entry.index]? = some d ∧ d.ops = ops := by
  rw [Program.ops, map_eq_ok]
  simp only [block_eq_ok_iff]

/-- A program that has operations has a block, which lists the types of its inputs. -/
theorem inputTys_of_listed {ops : List OpId} (h : p.ops s = .ok ops) :
    p.inputTys s = .ok (s.argTys p.entry) := by
  obtain ⟨d, hd, -⟩ := ops_eq_ok_iff.1 h
  rw [Program.inputTys, block_eq_ok_iff.2 hd, argTys, hd]
  rfl

theorem Valid.inputTys {ops : List OpId} (h : s.Valid p ops) :
    p.inputTys s = .ok (s.argTys p.entry) :=
  inputTys_of_listed h.listed

theorem Defines.mono {done done' : List OpId} (h : ∀ o ∈ done, o ∈ done') {v : ValueId}
    (hv : s.Defines p done v) : s.Defines p done' v := by
  rcases hv with hinput | ⟨o, ho, hresult⟩
  · exact .inl hinput
  · exact .inr ⟨o, h o ho, hresult⟩

theorem Fits.mono {done done' : List OpId} (h : ∀ o ∈ done, o ∈ done') {d : Operation}
    (hd : s.Fits p done d) : s.Fits p done' d :=
  ⟨hd.parent, fun v hv => (hd.operands v hv).mono h, hd.typed⟩

/-- **A list flows iff its front does and its back does behind the front.** -/
theorem flow_append {done front back : List OpId} :
    s.Flow p done (front ++ back) ↔ s.Flow p done front ∧ s.Flow p (done ++ front) back := by
  induction front generalizing done with
  | nil => simp [Flow]
  | cons o rest ih =>
    rw [List.cons_append, Flow, Flow, ih, and_assoc, List.append_assoc, List.singleton_append]

/-- Operations flow iff each fits behind those before it. -/
theorem flow_iff {done ops : List OpId} :
    s.Flow p done ops ↔ ∀ before o after, ops = before ++ o :: after →
      ∃ d, s.ops[o.index]? = some d ∧ s.Fits p (done ++ before) d := by
  constructor
  · rintro h before o after rfl
    exact (flow_append.1 h).2.1
  · intro h
    induction ops generalizing done with
    | nil => trivial
    | cons o rest ih =>
      refine ⟨by simpa using h [] o rest rfl, ih fun before o' after heq => ?_⟩
      have := h (o :: before) o' after (by rw [heq, List.cons_append])
      rwa [List.append_assoc, List.singleton_append]

/-- An operation of a list that flows. -/
theorem Flow.fits {done ops : List OpId} (h : s.Flow p done ops) {o : OpId} (ho : o ∈ ops) :
    ∃ d, s.ops[o.index]? = some d ∧ s.Fits p (done ++ ops) d := by
  obtain ⟨before, after, rfl⟩ := List.append_of_mem ho
  obtain ⟨d, hd, hfits⟩ := flow_iff.1 h before o after rfl
  refine ⟨d, hd, hfits.mono fun o' ho' => ?_⟩
  rw [← List.append_assoc]
  exact List.mem_append_left _ ho'

/-- The result of an operation that is not listed is not known behind the list. -/
theorem not_defines_of_notMem (hs : s.Owned) {done : List OpId} {o : OpId} {v : ValueId}
    (hresult : s.result? o = some v) (ho : o ∉ done) : ¬ s.Defines p done v := by
  rintro (hinput | ⟨o', ho', hresult'⟩)
  · exact hs.result_notMem_args hresult p.entry hinput
  · exact ho (hs.result_inj hresult' hresult ▸ ho')

/-- A result is known behind a list exactly if the list has its operation. -/
theorem defines_result_iff (hs : s.Owned) {done : List OpId} {o : OpId} {v : ValueId}
    (hresult : s.result? o = some v) : s.Defines p done v ↔ o ∈ done :=
  ⟨fun hv => Decidable.byContradiction fun ho => not_defines_of_notMem hs hresult ho hv,
    fun ho => .inr ⟨o, ho, hresult⟩⟩

/-- An argument of a block is known exactly to the programs over the block. -/
theorem defines_argument_iff (hs : s.Owned) {done : List OpId} {b : BlockId} {i : Nat} {v : ValueId}
    (harg : (s.args b)[i]? = some v) : s.Defines p done v ↔ b = p.entry := by
  constructor
  · obtain ⟨ty, -, hv⟩ := hs.arg_origin b i v harg
    rintro (hinput | ⟨o, -, hresult⟩)
    · obtain ⟨j, hj⟩ := List.getElem?_of_mem hinput
      obtain ⟨ty', -, hv'⟩ := hs.arg_origin p.entry j v hj
      rw [hv] at hv'
      cases hv'
      rfl
    · exact absurd (List.mem_of_getElem? harg) (hs.result_notMem_args hresult b)
  · rintro rfl
    exact .inl (List.mem_of_getElem? harg)

theorem defines_append_singleton {done : List OpId} {o : OpId} {v : ValueId} :
    s.Defines p (done ++ [o]) v ↔ s.Defines p done v ∨ s.result? o = some v := by
  simp only [Defines, List.mem_append, List.mem_singleton, or_assoc, or_and_right, exists_or,
    exists_eq_left]

/-! ## Types -/

theorem eq_pair_of_length {α : Type} {l : List α} (h : l.length = 2) : ∃ a b, l = [a, b] := by
  match l, h with
  | [a, b], _ => exact ⟨a, b, rfl⟩

theorem typeDefect?_eq_none_iff {d : Operation} :
    s.typeDefect? d = none ↔
      (∀ n, d.opcode.arity? = some n → n = d.operands.length) ∧
        d.opcode.hasResult = d.resultTy?.isSome ∧
        (s.operandTys d.operands).length = d.operands.length ∧
        wellTyped d.opcode (s.operandTys d.operands) d.resultTy? = true := by
  unfold typeDefect?
  cases harity : d.opcode.arity? with
  | none =>
    simp only [Option.filter_none, reduceCtorEq, false_implies, implies_true, true_and]
    grind
  | some n =>
    by_cases hn : n = d.operands.length
    · simp only [Option.filter_some, hn, ne_eq, not_true_eq_false, decide_false,
        Bool.false_eq_true, if_false, Option.some.injEq]
      grind
    · simp [hn, Option.filter_some]

/-- The operands and the result type that an opcode may have. -/
inductive WellTyped (s : Store) : Opcode → List ValueId → Option Ty → Prop
  | const (bits : UInt64) (w : Width) : WellTyped s (.const bits) [] (some (.int w))
  | fconst (bits : UInt64) : WellTyped s (.fconst bits) [] (some .double)
  | unary {op : UnaryOp} {v : ValueId} {ty : Ty} (hv : s.values[v.index]?.map (·.ty) = some ty)
      (accepts : op.accepts ty = true) : WellTyped s (.unary op) [v] (some ty)
  | binary {op : BinaryOp} {v v' : ValueId} {ty : Ty}
      (hv : s.values[v.index]?.map (·.ty) = some ty)
      (hv' : s.values[v'.index]?.map (·.ty) = some ty) (accepts : op.accepts ty = true) :
      WellTyped s (.binary op) [v, v'] (some ty)
  | compare (test : Comparison) {v v' : ValueId} {ty : Ty}
      (hv : s.values[v.index]?.map (·.ty) = some ty)
      (hv' : s.values[v'.index]?.map (·.ty) = some ty) :
      WellTyped s (.compare test) [v, v'] (some .bool)
  | ret {vs : List ValueId} (hvs : (s.operandTys vs).length = vs.length) : WellTyped s .ret vs none

theorem operandTys_nil : s.operandTys [] = [] := rfl

theorem operandTys_cons {v : ValueId} {ty : Ty} (h : s.values[v.index]?.map (·.ty) = some ty)
    (rest : List ValueId) : s.operandTys (v :: rest) = ty :: s.operandTys rest := by
  simp only [operandTys, List.filterMap_cons, h]

theorem operandTys_length {vs : List ValueId} (h : ∀ v ∈ vs, s.isAllocated v = true) :
    (s.operandTys vs).length = vs.length := by
  induction vs with
  | nil => rfl
  | cons v vs ih =>
    have hv := Array.getElem?_eq_getElem (of_decide_eq_true (h v List.mem_cons_self))
    rw [operandTys_cons (congrArg (Option.map (·.ty)) hv), List.length_cons, List.length_cons,
      ih fun v' hv' => h v' (List.mem_cons_of_mem _ hv')]

/-- Where no operand is left out, each has a type. -/
theorem operandTys_eq_cons {v : ValueId} {rest : List ValueId}
    (h : (s.operandTys (v :: rest)).length = (v :: rest).length) :
    ∃ ty, s.values[v.index]?.map (·.ty) = some ty ∧
      (s.operandTys rest).length = rest.length := by
  have hle : (s.operandTys rest).length ≤ rest.length := List.length_filterMap_le _ _
  cases hv : s.values[v.index]?.map (·.ty) with
  | none =>
    have hnone : s.operandTys (v :: rest) = s.operandTys rest := by
      simp only [operandTys, List.filterMap_cons, hv]
    rw [hnone, List.length_cons] at h
    omega
  | some ty =>
    rw [operandTys_cons hv, List.length_cons, List.length_cons] at h
    exact ⟨ty, rfl, Nat.succ.inj h⟩

theorem wellTyped_of_typeDefect? {d : Operation} (h : s.typeDefect? d = none) :
    WellTyped s d.opcode d.operands d.resultTy? := by
  obtain ⟨opcode, operands, resultTy?, result?, parent?⟩ := d
  obtain ⟨harity, hresult, hlength, hwell⟩ := typeDefect?_eq_none_iff.1 h
  dsimp only at harity hresult hlength hwell ⊢
  cases opcode with
  | const bits =>
    obtain rfl := List.length_eq_zero_iff.1 (harity 0 rfl).symm
    rw [wellTyped_const] at hwell
    obtain ⟨ty, rfl, hint⟩ := (Option.any_eq_true _ _).1 hwell
    cases ty with
    | int w => exact .const bits w
    | double => cases hint
    | bool => cases hint
  | fconst bits =>
    obtain rfl := List.length_eq_zero_iff.1 (harity 0 rfl).symm
    rw [wellTyped_fconst] at hwell
    rw [of_decide_eq_true hwell]
    exact .fconst bits
  | unary op =>
    obtain ⟨v, rfl⟩ := List.length_eq_one_iff.1 (harity 1 rfl).symm
    obtain ⟨ty, hv, -⟩ := operandTys_eq_cons hlength
    rw [operandTys_cons hv, operandTys_nil, wellTyped_unary] at hwell
    obtain ⟨haccepts, hty⟩ := Bool.and_eq_true_iff.1 hwell
    rw [of_decide_eq_true hty]
    exact .unary hv haccepts
  | binary op =>
    obtain ⟨v, v', rfl⟩ := eq_pair_of_length (harity 2 rfl).symm
    obtain ⟨ty, hv, hrest⟩ := operandTys_eq_cons hlength
    obtain ⟨ty', hv', -⟩ := operandTys_eq_cons hrest
    rw [operandTys_cons hv, operandTys_cons hv', operandTys_nil, wellTyped_binary] at hwell
    obtain ⟨htys, hty⟩ := Bool.and_eq_true_iff.1 hwell
    obtain ⟨haccepts, hsame⟩ := Bool.and_eq_true_iff.1 htys
    obtain rfl := of_decide_eq_true hsame
    rw [of_decide_eq_true hty]
    exact .binary hv hv' haccepts
  | compare test =>
    obtain ⟨v, v', rfl⟩ := eq_pair_of_length (harity 2 rfl).symm
    obtain ⟨ty, hv, hrest⟩ := operandTys_eq_cons hlength
    obtain ⟨ty', hv', -⟩ := operandTys_eq_cons hrest
    rw [operandTys_cons hv, operandTys_cons hv', operandTys_nil, wellTyped_compare] at hwell
    obtain ⟨hsame, hty⟩ := Bool.and_eq_true_iff.1 hwell
    obtain rfl := of_decide_eq_true hsame
    rw [of_decide_eq_true hty]
    exact .compare test hv hv'
  | ret =>
    obtain rfl : resultTy? = none := by
      cases resultTy? with
      | none => rfl
      | some ty => cases hresult
    exact .ret hlength

theorem WellTyped.typeDefect?_eq_none {d : Operation}
    (h : WellTyped s d.opcode d.operands d.resultTy?) : s.typeDefect? d = none := by
  obtain ⟨opcode, operands, resultTy?, result?, parent?⟩ := d
  rw [typeDefect?_eq_none_iff]
  dsimp only at h ⊢
  cases h with
  | const bits w => simp [Opcode.arity?, Opcode.hasResult, operandTys_nil, Ty.isInt]
  | fconst bits => simp [Opcode.arity?, Opcode.hasResult, operandTys_nil]
  | unary hv haccepts =>
    simp [Opcode.arity?, Opcode.hasResult, operandTys_nil, operandTys_cons hv, haccepts]
  | binary hv hv' haccepts =>
    simp [Opcode.arity?, Opcode.hasResult, operandTys_nil, operandTys_cons hv,
      operandTys_cons hv', haccepts]
  | compare test hv hv' =>
    simp [Opcode.arity?, Opcode.hasResult, operandTys_nil, operandTys_cons hv,
      operandTys_cons hv']
  | ret hvs => exact ⟨by simp [Opcode.arity?], rfl, hvs, rfl⟩

/-- **The types of an operation are in order iff its opcode may have them.** -/
theorem typeDefect?_eq_none_iff_wellTyped {d : Operation} :
    s.typeDefect? d = none ↔ WellTyped s d.opcode d.operands d.resultTy? :=
  ⟨wellTyped_of_typeDefect?, WellTyped.typeDefect?_eq_none⟩

/-! ## Violations of the flow -/

theorem mapM_eq_nones {ε α β : Type} {f : α → Except ε (Option β)} :
    ∀ {l : List α}, (∃ bs, l.mapM f = .ok bs ∧ bs.filterMap id = []) ↔ ∀ x ∈ l, f x = .ok none
  | [] => by simp [List.mapM_nil, pure, Except.pure]
  | x :: rest => by
    rw [List.forall_mem_cons, ← mapM_eq_nones, List.mapM_cons]
    constructor
    · rintro ⟨bs, hbs, hnone⟩
      obtain ⟨b, hb, hbs⟩ := bind_eq_ok.1 hbs
      obtain ⟨rest', hrest, hbs⟩ := bind_eq_ok.1 hbs
      cases hbs
      cases b with
      | none => exact ⟨hb, rest', hrest, by simpa using hnone⟩
      | some b => simp at hnone
    · rintro ⟨hb, rest', hrest, hnone⟩
      exact ⟨none :: rest', by rw [hb, hrest]; rfl, by simpa using hnone⟩

theorem operandViolation?_eq_none_iff {defined : Marks} {use : Use} {v : ValueId} :
    s.operandViolation? defined use v = .ok none ↔ defined.contains v.index = true := by
  unfold operandViolation?
  by_cases h : defined.contains v.index = true
  · simp [h, pure, Except.pure]
  · simp only [h, Bool.false_eq_true, if_false, iff_false]
    split
    · intro hok
      obtain ⟨placed, -, hok⟩ := bind_eq_ok.1 hok
      split at hok <;> cases hok
    · intro hok
      cases hok

theorem opViolations_eq_nil_iff {defined : Marks} {o : OpId} {isLast : Bool} :
    s.opViolations p defined o isLast = .ok [] ↔
      ∃ d, s.ops[o.index]? = some d ∧ d.parent? = some p.entry ∧
        (∀ v ∈ d.operands, defined.contains v.index = true) ∧ s.typeDefect? d = none ∧
        (d.opcode = .ret → isLast = true) := by
  have hoperands : ∀ d : Operation,
      (∃ bs, d.operands.zipIdx.mapM
          (fun slot => s.operandViolation? defined ⟨o, slot.2⟩ slot.1) = .ok bs ∧
        bs.filterMap id = []) ↔ ∀ v ∈ d.operands, defined.contains v.index = true := by
    intro d
    rw [mapM_eq_nones]
    constructor
    · intro h v hv
      obtain ⟨i, hi⟩ := List.getElem?_of_mem hv
      exact operandViolation?_eq_none_iff.1 (h (v, i) (List.mem_zipIdx_iff_getElem?.2 hi))
    · rintro h ⟨v, i⟩ hvi
      exact operandViolation?_eq_none_iff.2
        (h v (List.mem_of_getElem? (List.mem_zipIdx_iff_getElem?.1 hvi)))
  simp only [opViolations, bind_eq_ok, op_eq_ok_iff, pure, Except.pure, Except.ok.injEq,
    List.append_eq_nil_iff]
  refine exists_congr fun d => and_congr_right fun _ => ?_
  constructor
  · rintro ⟨bs, hbs, ⟨⟨hparent, hnone⟩, htypes⟩, hplace⟩
    refine ⟨by simpa using hparent, (hoperands d).1 ⟨bs, hbs, hnone⟩, by simpa using htypes, ?_⟩
    intro hret
    simpa [hret] using hplace
  · rintro ⟨hparent, hdefined, htypes, hplace⟩
    obtain ⟨bs, hbs, hnone⟩ := (hoperands d).2 hdefined
    refine ⟨bs, hbs, ⟨⟨by simp [hparent], hnone⟩, by simp [htypes]⟩, ?_⟩
    by_cases hret : d.opcode = .ret <;> simp [hret, hplace]

/-- The marks behind an operation with the given result. -/
def marksAfter (defined : Marks) : Option ValueId → Marks
  | some v => defined.insert v.index ()
  | none => defined

/-- The marks are what is known behind the operations `done`. -/
def Marked (s : Store) (p : Program) (defined : Marks) (done : List OpId) : Prop :=
  ∀ v : ValueId, defined.contains v.index = true ↔ s.Defines p done v

/-- The marks of the inputs are what is known before all operations. -/
theorem marked_inputs (s : Store) (p : Program) :
    s.Marked p (Marks.ofList ((p.inputs s).map (·.index))) [] := by
  intro v
  rw [Marks.contains_ofList]
  constructor
  · intro h
    obtain ⟨⟨i⟩, hv, rfl⟩ := List.mem_map.1 h
    exact .inl hv
  · rintro (hinput | ⟨o, ho, -⟩)
    · exact List.mem_map.2 ⟨v, hinput, rfl⟩
    · cases ho

theorem Marked.after {defined : Marks} {done : List OpId} (h : s.Marked p defined done) (o : OpId) :
    s.Marked p (marksAfter defined (s.result? o)) (done ++ [o]) := by
  intro v
  rw [defines_append_singleton, ← h v]
  cases s.result? o with
  | none => simp [marksAfter]
  | some v' =>
    rw [marksAfter, Table.contains_insert]
    cases v; cases v'
    simp [or_comm]

/-- Only the last operation of a list may be a `ret`. -/
def RetLast (s : Store) : List OpId → Prop
  | [] => True
  | o :: rest => (s.opcode? o = some .ret → rest = []) ∧ RetLast s rest

theorem flowViolations_eq_nil_iff {ops done : List OpId} {defined : Marks}
    (h : s.Marked p defined done) :
    s.flowViolations p ops defined = .ok [] ↔ s.Flow p done ops ∧ s.RetLast ops := by
  induction ops generalizing done defined with
  | nil => simp [flowViolations, Flow, RetLast]
  | cons o rest ih =>
    have hnext := h.after o
    have hhere : s.opViolations p defined o rest.isEmpty = .ok [] ↔
        (∃ d, s.ops[o.index]? = some d ∧ s.Fits p done d) ∧
          (s.opcode? o = some .ret → rest = []) := by
      rw [opViolations_eq_nil_iff]
      constructor
      · rintro ⟨d, hd, hparent, hoperands, htyped, hret⟩
        refine ⟨⟨d, hd, hparent, fun v hv => (h v).1 (hoperands v hv), htyped⟩, ?_⟩
        simpa [opcode?, hd] using hret
      · rintro ⟨⟨d, hd, hfits⟩, hret⟩
        refine ⟨d, hd, hfits.parent, fun v hv => (h v).2 (hfits.operands v hv), hfits.typed, ?_⟩
        simpa [opcode?, hd] using hret
    rw [flowViolations]
    simp only [bind_eq_ok, pure, Except.pure, Except.ok.injEq, List.append_eq_nil_iff]
    rw [Flow, RetLast]
    constructor
    · rintro ⟨here, hok, later, hlater, rfl, rfl⟩
      obtain ⟨hflow, hret⟩ := (ih hnext).1 hlater
      obtain ⟨hfits, hplace⟩ := hhere.1 hok
      exact ⟨⟨hfits, hflow⟩, hplace, hret⟩
    · rintro ⟨⟨hfits, hflow⟩, hplace, hret⟩
      exact ⟨[], hhere.2 ⟨hfits, hplace⟩, [], (ih hnext).2 ⟨hflow, hret⟩, rfl, rfl⟩

/-! ## The ending -/

theorem retLast_append_singleton {body : List OpId} {last : OpId} :
    s.RetLast (body ++ [last]) ↔ ∀ o ∈ body, s.opcode? o ≠ some .ret := by
  induction body with
  | nil => simp [RetLast]
  | cons o rest ih => simp [RetLast, ih]

theorem terminator?_eq_some_iff {ops : List OpId} (h : p.ops s = .ok ops) {o : OpId} :
    p.terminator? s = .ok (some o) ↔ ops.getLast? = some o ∧ s.opcode? o = some .ret := by
  simp only [Program.terminator?, h, bind_eq_ok, Except.ok.injEq, exists_eq_left']
  cases hlast : ops.getLast? with
  | none => simp
  | some last =>
    simp only [bind_eq_ok, op_eq_ok_iff, Except.ok.injEq, Option.some.injEq]
    constructor
    · rintro ⟨d, hd, hret⟩
      split at hret
      · next hopcode =>
        cases hret
        exact ⟨rfl, by rw [opcode?, hd, Option.map_some, hopcode]⟩
      · cases hret
    · rintro ⟨rfl, hopcode⟩
      obtain ⟨d, hd, hret⟩ := Option.map_eq_some_iff.1 hopcode
      exact ⟨d, hd, by rw [if_pos hret]⟩

/-- Where the operations have entries, looking for the terminator finds whether there is one. -/
theorem exists_terminator? {ops : List OpId} (h : p.ops s = .ok ops)
    (hops : ∀ o ∈ ops, ∃ d, s.ops[o.index]? = some d) :
    ∃ last?, p.terminator? s = .ok last? ∧
      last?.isNone = !decide (ops.getLast?.bind s.opcode? = some .ret) := by
  rw [Program.terminator?, h]
  cases hlast : ops.getLast? with
  | none => exact ⟨none, by simp [bind, Except.bind, hlast], by simp⟩
  | some last =>
    obtain ⟨d, hd⟩ := hops last (List.mem_of_getLast? hlast)
    refine ⟨if d.opcode = .ret then some last else none, ?_, ?_⟩
    · simp [bind, Except.bind, hlast, op_eq_ok_iff.2 hd]
    · by_cases hret : d.opcode = .ret <;> simp [opcode?, hd, hret]

/-! ## Violations of the chains -/

/-- The values of a program are numbers of values. -/
theorem Defines.isAllocated (hs : s.Owned) {done : List OpId} {v : ValueId}
    (hv : s.Defines p done v) : s.isAllocated v = true := by
  obtain ⟨x, hx⟩ : ∃ x, s.values[v.index]? = some x := by
    rcases hv with hinput | ⟨o, -, hresult⟩
    · obtain ⟨i, hi⟩ := List.getElem?_of_mem hinput
      obtain ⟨ty, -, hv⟩ := hs.arg_origin p.entry i v hi
      exact ⟨_, hv⟩
    · obtain ⟨ty, -, hv⟩ := hs.result_origin o v hresult
      exact ⟨_, hv⟩
  exact decide_eq_true (Array.getElem?_eq_some_iff.1 hx).1

theorem mem_slots {ops : List OpId} {use : Use} {v : ValueId} :
    (use, v) ∈ s.slots ops ↔ use.user ∈ ops ∧ s.slot? use = some v := by
  obtain ⟨user, slot⟩ := use
  simp only [slots, List.mem_flatMap]
  constructor
  · rintro ⟨o, ho, hmem⟩
    split at hmem
    · next d hd =>
      obtain ⟨⟨v', i⟩, hvi, heq⟩ := List.mem_map.1 hmem
      cases heq
      refine ⟨ho, ?_⟩
      rw [slot?, hd]
      exact List.mem_zipIdx_iff_getElem?.1 hvi
    · cases hmem
  · rintro ⟨ho, hread⟩
    obtain ⟨d, hd, hv⟩ := Option.bind_eq_some_iff.1 hread
    refine ⟨user, ho, ?_⟩
    rw [hd]
    exact List.mem_map.2 ⟨(v, slot), List.mem_zipIdx_iff_getElem?.2 hv, rfl⟩

theorem mem_distinct_ops {ops : List OpId} {o : OpId} :
    o ∈ (distinct (ops.map (·.index))).map OpId.mk ↔ o ∈ ops := by
  simp only [List.mem_map, mem_distinct]
  constructor
  · rintro ⟨i, ⟨o', ho', rfl⟩, rfl⟩
    exact ho'
  · intro ho
    exact ⟨o.index, ⟨o, ho, rfl⟩, rfl⟩

theorem mem_distinct_values {values : List ValueId} {v : ValueId} :
    v ∈ (distinct (values.map (·.index))).map ValueId.mk ↔ v ∈ values := by
  simp only [List.mem_map, mem_distinct]
  constructor
  · rintro ⟨i, ⟨v', hv', rfl⟩, rfl⟩
    exact hv'
  · intro hv
    exact ⟨v.index, ⟨v, hv, rfl⟩, rfl⟩

theorem reads_iff {ops : List OpId} {use : Use} {v : ValueId} :
    s.reads (Marks.ofList (ops.map (·.index))) use v = true ↔
      use.user ∈ ops ∧ s.slot? use = some v := by
  have hlisted : use.user.index ∈ ops.map (·.index) ↔ use.user ∈ ops := by
    constructor
    · intro h
      obtain ⟨⟨i⟩, ho, rfl⟩ := List.mem_map.1 h
      exact ho
    · exact fun h => List.mem_map.2 ⟨use.user, h, rfl⟩
  rw [reads, Bool.and_eq_true, Marks.contains_ofList, hlisted, beq_iff_eq]
  rfl

/-- The value is an input of the program, or the result or an operand of an operation of it. -/
def Touches (s : Store) (p : Program) (ops : List OpId) (v : ValueId) : Prop :=
  s.Defines p ops v ∨ ∃ use, use.user ∈ ops ∧ s.slot? use = some v

/-- The values whose chains a validation looks at. -/
def touched (s : Store) (p : Program) (ops : List OpId) : List ValueId :=
  let slots := s.slots ((distinct (ops.map (·.index))).map OpId.mk)
  let values := p.inputs s ++ slots.map (·.2) ++ ops.filterMap s.result?
  ((distinct (values.map (·.index))).map ValueId.mk).filter s.isAllocated

/-- The entries of a chain that are no slots of the marked operations. -/
def strays (s : Store) (listed : Marks) (v : ValueId) : List ChainDefect :=
  (s.uses v).filterMap fun use => if s.reads listed use v then none else some (.stray use v)

theorem mem_touched {ops : List OpId} {v : ValueId} :
    v ∈ s.touched p ops ↔ s.Touches p ops v ∧ s.isAllocated v = true := by
  have hslots : v ∈ (s.slots ((distinct (ops.map (·.index))).map OpId.mk)).map (·.2) ↔
      ∃ use, use.user ∈ ops ∧ s.slot? use = some v := by
    rw [List.mem_map]
    constructor
    · rintro ⟨⟨use, _⟩, hslot, rfl⟩
      obtain ⟨ho, hread⟩ := mem_slots.1 hslot
      exact ⟨use, mem_distinct_ops.1 ho, hread⟩
    · rintro ⟨use, ho, hread⟩
      exact ⟨(use, v), mem_slots.2 ⟨mem_distinct_ops.2 ho, hread⟩, rfl⟩
  rw [touched, List.mem_filter, mem_distinct_values, List.mem_append, List.mem_append, hslots,
    List.mem_filterMap, Touches, Defines, or_right_comm]

theorem mem_strays (hs : s.ChainsExact) {ops : List OpId} {v : ValueId} {defect : ChainDefect} :
    defect ∈ s.strays (Marks.ofList (ops.map (·.index))) v ↔
      ∃ use, defect = .stray use v ∧ use.user ∉ ops ∧ s.slot? use = some v := by
  simp only [strays, List.mem_filterMap, hs.mem_uses]
  constructor
  · rintro ⟨use, hread, hdefect⟩
    split at hdefect
    · cases hdefect
    · next hreads =>
      exact ⟨use, (Option.some.inj hdefect).symm, fun ho => hreads (reads_iff.2 ⟨ho, hread⟩), hread⟩
  · rintro ⟨use, rfl, ho, hread⟩
    exact ⟨use, hread, if_neg fun hreads => ho (reads_iff.1 hreads).1⟩

/-- No slot of a program is missing in the chains. -/
theorem chainDefects_eq (hs : s.ChainsExact) (p : Program) (ops : List OpId) :
    s.chainDefects p ops =
      (s.touched p ops).flatMap (s.strays (Marks.ofList (ops.map (·.index)))) := by
  refine (congrArg (· ++ _) (List.filterMap_eq_nil_iff.2 fun slot hslot => ?_)).trans
    (List.nil_append _)
  have hlisted := (hs.mem_uses slot.2 slot.1).2 (mem_slots.1 hslot).2
  simp [hlisted]

/-- **The chains of a program differ from its operands by the slots of other operations** that read
a value which the program touches. -/
theorem mem_chainDefects (hs : s.ChainsExact) {ops : List OpId} {defect : ChainDefect} :
    defect ∈ s.chainDefects p ops ↔ ∃ use v, defect = .stray use v ∧ s.isAllocated v = true ∧
      s.Touches p ops v ∧ use.user ∉ ops ∧ s.slot? use = some v := by
  simp only [chainDefects_eq hs, List.mem_flatMap, mem_touched, mem_strays hs]
  constructor
  · rintro ⟨v, ⟨htouches, hallocated⟩, use, rfl, ho, hread⟩
    exact ⟨use, v, rfl, hallocated, htouches, ho, hread⟩
  · rintro ⟨use, v, rfl, hallocated, htouches, ho, hread⟩
    exact ⟨v, ⟨htouches, hallocated⟩, use, rfl, ho, hread⟩

/-- A program that flows reads what it defines. -/
theorem Flow.touches_iff {ops : List OpId} (hflow : s.Flow p [] ops) {v : ValueId} :
    s.Touches p ops v ↔ s.Defines p ops v := by
  refine ⟨fun htouches => ?_, .inl⟩
  rcases htouches with hdefines | ⟨use, ho, hread⟩
  · exact hdefines
  · obtain ⟨d, hd, hfits⟩ := hflow.fits ho
    rw [slot?, hd] at hread
    exact hfits.operands v (List.mem_of_getElem? hread)

/-- **The chains of a program that flows are in order iff no other operation reads its values.** -/
theorem chainDefects_eq_nil_iff (hs : s.Consistent) {ops : List OpId} (hflow : s.Flow p [] ops) :
    s.chainDefects p ops = [] ↔
      ∀ v use, s.Defines p ops v → s.slot? use = some v → use.user ∈ ops := by
  rw [List.eq_nil_iff_forall_not_mem]
  simp only [mem_chainDefects hs.chains, hflow.touches_iff]
  constructor
  · intro hnone v use hv hread
    exact Decidable.byContradiction fun ho =>
      hnone _ ⟨use, v, rfl, hv.isAllocated hs.owned, hv, ho, hread⟩
  · rintro hclosed _ ⟨use, v, -, -, hv, ho, hread⟩
    exact ho (hclosed v use hv hread)

/-- Sorting leaves nothing only of nothing. -/
theorem mergeSort_eq_nil_iff {α : Type} {le : α → α → Bool} {l : List α} :
    l.mergeSort le = [] ↔ l = [] := by
  rw [← List.length_eq_zero_iff, List.length_mergeSort, List.length_eq_zero_iff]

/-- **A validation passes iff the program is valid.** -/
theorem validate_eq_nil_iff (hs : s.Consistent) (p : Program) :
    s.validate p = .ok [] ↔ ∃ ops, s.Valid p ops := by
  have hinputs := s.marked_inputs p
  simp only [validate, bind_eq_ok, pure, Except.pure, Except.ok.injEq, List.append_eq_nil_iff,
    List.map_eq_nil_iff, mergeSort_eq_nil_iff]
  constructor
  · rintro ⟨ops, hops, flow, hflow, last?, hlast?, ⟨rfl, hending⟩, hchains⟩
    obtain ⟨hflow, hret⟩ := (flowViolations_eq_nil_iff hinputs).1 hflow
    obtain ⟨last, rfl⟩ : ∃ last, last? = some last := by
      cases last? with
      | none => simp at hending
      | some last => exact ⟨last, rfl⟩
    obtain ⟨hlast, hopcode⟩ := (terminator?_eq_some_iff hops).1 hlast?
    obtain ⟨body, rfl⟩ := List.getLast?_eq_some_iff.1 hlast
    exact ⟨_, hops, hflow, ⟨body, last, rfl, hopcode, retLast_append_singleton.1 hret⟩,
      (chainDefects_eq_nil_iff hs hflow).1 hchains⟩
  · rintro ⟨_, hops, hflow, ⟨body, last, rfl, hopcode, hbody⟩, hclosed⟩
    refine ⟨_, hops, [], (flowViolations_eq_nil_iff hinputs).2
      ⟨hflow, retLast_append_singleton.2 hbody⟩, some last,
      (terminator?_eq_some_iff hops).2 ⟨List.getLast?_concat, hopcode⟩, ⟨rfl, rfl⟩,
      (chainDefects_eq_nil_iff hs hflow).2 hclosed⟩

end Store

end Mba
