import Mba.Proofs.Program.Appended
import Mba.Proofs.Program.Copy

/-!
# Calls at the end of a program

A program is made by calls of a builder at its end. A call whose operands are values of the program
fails at the types of its operands or emits one operation, and a call that fails changes nothing. So
any sequence of such calls, the failing ones among them, appends operations to the program.

Results:
* `Call.Makes`, `Call.failed_or_makes`: the operation that a call over values makes, or else it
  fails.
* `Call.give_outcome`: what a call over values does, at whatever place.
* `Call.run_outcome`: what a call over values of the program does.
* `attemptAll_appended`: what a sequence of calls does.
-/

namespace Mba

namespace Builder

/-- A call of a builder. -/
inductive Call
  | int (ty : Ty) (value : Int)
  | double (x : Double)
  | unary (op : UnaryOp) (operand : ValueId)
  | binary (op : BinaryOp) (lhs rhs : ValueId)
  | compare (test : Comparison) (lhs rhs : ValueId)
  | ret (outputs : List ValueId)
  deriving DecidableEq, Repr

def Call.operands : Call → List ValueId
  | .int _ _ | .double _ => []
  | .unary _ x => [x]
  | .binary _ x y | .compare _ x y => [x, y]
  | .ret outputs => outputs

def Call.run : Call → Edit Builder BuildError Unit
  | .int ty value => discard (Builder.int ty value)
  | .double x => discard (Builder.double x)
  | .unary op x => discard (Builder.unary op x)
  | .binary op x y => discard (Builder.binary op x y)
  | .compare test x y => discard (Builder.compare test x y)
  | .ret outputs => discard (Builder.ret outputs)

/-- The call along with the value that it gives, if it gives one. -/
def Call.give : Call → Edit Builder BuildError (Option ValueId)
  | .int ty value => some <$> Builder.int ty value
  | .double x => some <$> Builder.double x
  | .unary op x => some <$> Builder.unary op x
  | .binary op x y => some <$> Builder.binary op x y
  | .compare test x y => some <$> Builder.compare test x y
  | .ret outputs => (fun _ => none) <$> Builder.ret outputs

/-- The edit behind a call that gives a value. -/
def Call.action? : Call → Option (Edit Builder BuildError ValueId)
  | .int ty value => some (Builder.int ty value)
  | .double x => some (Builder.double x)
  | .unary op x => some (Builder.unary op x)
  | .binary op x y => some (Builder.binary op x y)
  | .compare test x y => some (Builder.compare test x y)
  | .ret _ => none

theorem Call.run_eq_discard (call : Call) : call.run = discard call.give := by
  cases call <;> exact (Edit.discard_map _ _).symm

theorem Call.give_eq_map {call : Call} {action : Edit Builder BuildError ValueId}
    (h : call.action? = some action) : call.give = some <$> action := by
  cases call <;> cases h <;> rfl

/-- Only a `ret` gives no value. -/
theorem Call.eq_ret_of_give {call : Call} {b b' : Builder} (h : call.give b = .done none b') :
    ∃ outputs, call = .ret outputs := by
  cases call with
  | ret outputs => exact ⟨outputs, rfl⟩
  | _ =>
    obtain ⟨v, -, hsome⟩ := Edit.map_eq_done.1 h
    cases hsome

/-- The builder after a call, whether the call fails or not. -/
def attempt (b : Builder) (call : Call) : Except Fault Builder :=
  match call.run b with
  | .done _ b => .ok b
  | .failed _ b => .ok b
  | .fault f => .error f

/-- The builder after a sequence of calls. -/
def attemptAll (b : Builder) (calls : List Call) : Except Fault Builder :=
  calls.foldlM attempt b

/-- Whether a value is an input of the program or a result of what was emitted so far. -/
def knows (p : Program) (b : Builder) (v : ValueId) : Bool :=
  (p.inputs b.store).contains v || b.emitted.any fun o => b.store.result? o = some v

/-- Whether all operands of the calls are inputs of the program or results of earlier calls. -/
def readsKnown (p : Program) : Builder → List Call → Bool
  | _, [] => true
  | b, call :: rest =>
    call.operands.all (knows p b) &&
      match attempt b call with
      | .ok b => readsKnown p b rest
      | .error _ => true

end Builder

open Store Builder

variable {s : Store} {p : Program} {start : Nat} {done emitted : List OpId} {b b' : Builder}

/-! ## One call -/

theorem Builder.require_failed {holds : Bool} (h : holds = false) (defect : OperandDefect)
    (b : Builder) : require holds defect b = .failed (.operandTypes defect) b := by
  rw [require, h]
  rfl

theorem Builder.commonType_failed (opcode : Opcode) {x y : ValueId} {ty ty' : Ty}
    (hx : b.store.values[x.index]?.map (·.ty) = some ty)
    (hy : b.store.values[y.index]?.map (·.ty) = some ty') (hne : ty ≠ ty') :
    commonType opcode x y b = .failed (.operandTypes (.mixed opcode ty ty')) b := by
  rw [commonType, Edit.bind_done (typeOf_eq_done hx), Edit.bind_done (typeOf_eq_done hy)]
  exact Edit.bind_failed (require_failed (decide_eq_false hne) _ _)

/-- Two values have a common type, or the search for one fails and changes nothing. -/
theorem Builder.commonType_outcome (opcode : Opcode) {x y : ValueId}
    (hx : ∃ ty, b.store.values[x.index]?.map (·.ty) = some ty)
    (hy : ∃ ty, b.store.values[y.index]?.map (·.ty) = some ty) :
    (∃ ty, b.store.values[x.index]?.map (·.ty) = some ty ∧
        b.store.values[y.index]?.map (·.ty) = some ty) ∨
      ∃ e, commonType opcode x y b = .failed e b := by
  obtain ⟨ty, hx⟩ := hx
  obtain ⟨ty', hy⟩ := hy
  by_cases hsame : ty = ty'
  · exact .inl ⟨ty, hx, hsame ▸ hy⟩
  · exact .inr ⟨_, commonType_failed opcode hx hy hsame⟩

theorem Builder.unary_failed {op : UnaryOp} {x : ValueId} {ty : Ty}
    (hx : b.store.values[x.index]?.map (·.ty) = some ty) (hrefused : op.accepts ty = false) :
    unary op x b = .failed (.operandTypes (.unary op ty)) b := by
  rw [unary, Edit.bind_done (typeOf_eq_done hx)]
  exact Edit.bind_failed (require_failed hrefused _ _)

theorem Builder.binary_failed {op : BinaryOp} {x y : ValueId} {ty : Ty}
    (hx : b.store.values[x.index]?.map (·.ty) = some ty)
    (hy : b.store.values[y.index]?.map (·.ty) = some ty) (hrefused : op.accepts ty = false) :
    binary op x y b = .failed (.operandTypes (.binary op ty)) b := by
  rw [binary, Edit.bind_done (commonType_eq_done _ hx hy)]
  exact Edit.bind_failed (require_failed hrefused _ _)

/-- The constants of an operation are as their texts are read. -/
def Operation.Exact (opcode : Opcode) (resultTy? : Option Ty) : Prop :=
  ∀ bits, opcode = .const bits → opcode.reread resultTy? = opcode

theorem Operation.Exact.of_ne {opcode : Opcode} {resultTy? : Option Ty}
    (h : ∀ bits, opcode ≠ .const bits) : Operation.Exact opcode resultTy? :=
  fun bits heq => absurd heq (h bits)

theorem Width.exact_ofInt (w : Width) (value : Int) :
    Operation.Exact (.const (w.ofInt value)) (some (.int w)) := by
  intro bits _
  have hwrap : w.wrap (w.ofInt value) = w.ofInt value := by rw [ofInt, w.wrap_wrap]
  show Opcode.const (w.ofInt (w.signed (w.ofInt value))) = _
  rw [w.ofInt_signed, hwrap]

/-- The operation that a call makes: its opcode, and the type of its result if it has one. -/
inductive Builder.Call.Makes (s : Store) : Call → Opcode → Option Ty → Prop
  | int (w : Width) (value : Int) :
      Makes s (.int (.int w) value) (.const (w.ofInt value)) (some (.int w))
  | double (x : Double) : Makes s (.double x) (.fconst x.bits) (some .double)
  | unary {op : UnaryOp} {x : ValueId} {ty : Ty} (hx : s.values[x.index]?.map (·.ty) = some ty)
      (haccepts : op.accepts ty = true) : Makes s (.unary op x) (.unary op) (some ty)
  | binary {op : BinaryOp} {x y : ValueId} {ty : Ty} (hx : s.values[x.index]?.map (·.ty) = some ty)
      (hy : s.values[y.index]?.map (·.ty) = some ty) (haccepts : op.accepts ty = true) :
      Makes s (.binary op x y) (.binary op) (some ty)
  | compare (test : Comparison) {x y : ValueId} {ty : Ty}
      (hx : s.values[x.index]?.map (·.ty) = some ty) (hy : s.values[y.index]?.map (·.ty) = some ty) :
      Makes s (.compare test x y) (.compare test) (some .bool)
  | ret {outputs : List ValueId} (houtputs : (s.operandTys outputs).length = outputs.length) :
      Makes s (.ret outputs) .ret none

namespace Builder.Call

variable {call : Call} {opcode : Opcode} {ty? : Option Ty}

theorem Makes.wellTyped (h : call.Makes s opcode ty?) : WellTyped s opcode call.operands ty? := by
  cases h with
  | int w value => exact .const _ w
  | double x => exact .fconst _
  | unary hx haccepts => exact .unary hx haccepts
  | binary hx hy haccepts => exact .binary hx hy haccepts
  | compare test hx hy => exact .compare test hx hy
  | ret houtputs => exact .ret houtputs

theorem Makes.exact (h : call.Makes s opcode ty?) : Operation.Exact opcode ty? := by
  cases h with
  | int w value => exact w.exact_ofInt value
  | _ => exact .of_ne (by simp)

/-- Only the call for a double constant makes one. -/
theorem Makes.eq_double {bits : UInt64} (h : call.Makes s (.fconst bits) ty?) :
    call = .double ⟨bits⟩ := by
  cases h
  rfl

/-- **A call over values** makes an operation, or fails and changes nothing. -/
theorem failed_or_makes (call : Call)
    (hallocated : ∀ v ∈ call.operands, b.store.isAllocated v = true) :
    (∃ e, call.give b = .failed e b) ∨ ∃ opcode ty?, call.Makes b.store opcode ty? := by
  have hty : ∀ v ∈ call.operands, ∃ ty, b.store.values[v.index]?.map (·.ty) = some ty := fun v hv =>
    ⟨_, by rw [Array.getElem?_eq_getElem (of_decide_eq_true (hallocated v hv)), Option.map_some]⟩
  cases call with
  | int ty value =>
    cases ty with
    | int w => exact .inr ⟨_, _, .int w value⟩
    | double => exact .inl ⟨_, rfl⟩
    | bool => exact .inl ⟨_, rfl⟩
  | double x => exact .inr ⟨_, _, .double x⟩
  | unary op x =>
    obtain ⟨ty, hx⟩ := hty x List.mem_cons_self
    cases haccepts : op.accepts ty with
    | true => exact .inr ⟨_, _, .unary hx haccepts⟩
    | false => exact .inl ⟨_, Edit.map_failed (unary_failed hx haccepts) _⟩
  | binary op x y =>
    rcases commonType_outcome (.binary op) (hty x List.mem_cons_self)
      (hty y (List.mem_cons_of_mem _ List.mem_cons_self)) with ⟨ty, hx, hy⟩ | ⟨e, hfailed⟩
    · cases haccepts : op.accepts ty with
      | true => exact .inr ⟨_, _, .binary hx hy haccepts⟩
      | false => exact .inl ⟨_, Edit.map_failed (binary_failed hx hy haccepts) _⟩
    · exact .inl ⟨e, Edit.map_failed (Edit.bind_failed hfailed) _⟩
  | compare test x y =>
    rcases commonType_outcome (.compare test) (hty x List.mem_cons_self)
      (hty y (List.mem_cons_of_mem _ List.mem_cons_self)) with ⟨ty, hx, hy⟩ | ⟨e, hfailed⟩
    · exact .inr ⟨_, _, .compare test hx hy⟩
    · exact .inl ⟨e, Edit.map_failed (Edit.bind_failed hfailed) _⟩
  | ret outputs => exact .inr ⟨_, _, .ret (operandTys_length hallocated)⟩

variable {target : Block} {listing : List OpId}

/-- **The operation that a call makes is emitted**, at a place that exists. -/
theorem Makes.give_eq_done (h : call.Makes s opcode ty?) (hs : s.Consistent) (point : InsertPoint)
    (htarget : s.blocks[point.block.index]? = some target)
    (hplace : Places point target.ops ⟨s.ops.size⟩ listing) (emitted : List OpId) :
    ∃ s', call.give ⟨s, point, emitted⟩ = .done (ty?.map fun _ => ⟨s.values.size⟩)
        ⟨s', point, emitted ++ [⟨s.ops.size⟩]⟩ ∧
      s.Emitted point.block listing ⟨opcode, call.operands, ty?, none⟩ s' := by
  have hemit := fun opcode operands ty =>
    emitValue_eq_done hs point opcode operands ty htarget hplace emitted
  cases h with
  | int w value =>
    obtain ⟨s', hdone, he⟩ := hemit (.const (w.ofInt value)) [] (.int w)
    exact ⟨s', Edit.map_done hdone some, he⟩
  | double x =>
    obtain ⟨s', hdone, he⟩ := hemit (.fconst x.bits) [] .double
    exact ⟨s', Edit.map_done hdone some, he⟩
  | @unary op x ty hx haccepts =>
    obtain ⟨s', hdone, he⟩ := hemit (.unary op) [x] ty
    rw [← unary_eq_emitValue hx haccepts] at hdone
    exact ⟨s', Edit.map_done hdone some, he⟩
  | @binary op x y ty hx hy haccepts =>
    obtain ⟨s', hdone, he⟩ := hemit (.binary op) [x, y] ty
    rw [← binary_eq_emitValue hx hy haccepts] at hdone
    exact ⟨s', Edit.map_done hdone some, he⟩
  | @compare test x y ty hx hy =>
    obtain ⟨s', hdone, he⟩ := hemit (.compare test) [x, y] .bool
    rw [← compare_eq_emitValue hx hy] at hdone
    exact ⟨s', Edit.map_done hdone some, he⟩
  | @ret outputs =>
    let draft : Draft := ⟨.ret, outputs, none, none⟩
    obtain ⟨s', hdone, he⟩ := emit_eq_done hs point (show draft.parent? = none from rfl) htarget
      hplace emitted
    exact ⟨s', Edit.map_done hdone fun _ => none, he⟩

/-- **A call over values**, at a place that exists, fails and changes nothing, or emits the
operation that it makes. -/
theorem give_outcome (hs : s.Consistent) (point : InsertPoint)
    (htarget : s.blocks[point.block.index]? = some target)
    (hplace : Places point target.ops ⟨s.ops.size⟩ listing) (call : Call)
    (hallocated : ∀ v ∈ call.operands, s.isAllocated v = true) (emitted : List OpId) :
    (∃ e, call.give ⟨s, point, emitted⟩ = .failed e ⟨s, point, emitted⟩) ∨
      ∃ opcode ty? s', call.Makes s opcode ty? ∧
        call.give ⟨s, point, emitted⟩ = .done (ty?.map fun _ => ⟨s.values.size⟩)
          ⟨s', point, emitted ++ [⟨s.ops.size⟩]⟩ ∧
        s.Emitted point.block listing ⟨opcode, call.operands, ty?, none⟩ s' := by
  refine (call.failed_or_makes (b := ⟨s, point, emitted⟩) hallocated).imp_right ?_
  rintro ⟨opcode, ty?, hmakes⟩
  obtain ⟨s', hdone, he⟩ := hmakes.give_eq_done hs point htarget hplace emitted
  exact ⟨opcode, ty?, s', hmakes, hdone, he⟩

/-- **A call that gives a value**, over operands that are values and at a place that exists. -/
theorem action_outcome (hs : s.Consistent) (point : InsertPoint)
    (htarget : s.blocks[point.block.index]? = some target)
    (hplace : Places point target.ops ⟨s.ops.size⟩ listing)
    {action : Edit Builder BuildError ValueId} (haction : call.action? = some action)
    (hallocated : ∀ v ∈ call.operands, s.isAllocated v = true) (emitted : List OpId) :
    (∃ e, action ⟨s, point, emitted⟩ = .failed e ⟨s, point, emitted⟩) ∨
      ∃ opcode ty s', action ⟨s, point, emitted⟩ =
          .done ⟨s.values.size⟩ ⟨s', point, emitted ++ [⟨s.ops.size⟩]⟩ ∧
        s.Emitted point.block listing ⟨opcode, call.operands, some ty, none⟩ s' ∧
        WellTyped s opcode call.operands (some ty) := by
  have houtcome := give_outcome hs point htarget hplace call hallocated emitted
  rw [give_eq_map haction] at houtcome
  rcases houtcome with ⟨e, hfailed⟩ | ⟨opcode, ty?, s', hmakes, hdone, he⟩
  · exact .inl ⟨e, Edit.map_eq_failed.1 hfailed⟩
  · obtain ⟨v, hdone, hsome⟩ := Edit.map_eq_done.1 hdone
    obtain ⟨ty, rfl, rfl⟩ := Option.map_eq_some_iff.1 hsome.symm
    exact .inr ⟨opcode, ty, s', hdone, he, hmakes.wellTyped⟩

end Builder.Call

/-- A call emits the operation of a draft at the end of the program. -/
structure Builder.Call.Emits (call : Call) (s : Store) (p : Program) (done : List OpId)
    (draft : Draft) (s' : Store) : Prop where
  emitted : s.Emitted p.entry (done ++ [⟨s.ops.size⟩]) draft s'
  typed : WellTyped s draft.opcode draft.operands draft.resultTy?
  operands : draft.operands = call.operands
  exact : Operation.Exact draft.opcode draft.resultTy?

/-- **A call over values of the program** fails and changes nothing, or emits an operation. -/
theorem Builder.Call.run_outcome (hs : s.Built p start done) (call : Call)
    (hknown : ∀ v ∈ call.operands, s.Defines p done v) (emitted : List OpId) :
    (∃ e, call.run ⟨s, .atEnd p.entry, emitted⟩ = .failed e ⟨s, .atEnd p.entry, emitted⟩) ∨
      ∃ draft s', call.run ⟨s, .atEnd p.entry, emitted⟩ =
          .done () ⟨s', .atEnd p.entry, emitted ++ [⟨s.ops.size⟩]⟩ ∧
        call.Emits s p done draft s' := by
  obtain ⟨target, htarget, hops⟩ := ops_eq_ok_iff.1 hs.listed
  have hallocated := fun v hv => (hknown v hv).isAllocated hs.consistent.owned
  rw [run_eq_discard]
  rcases give_outcome hs.consistent (.atEnd p.entry) htarget (congrArg (· ++ _) hops.symm) call
    hallocated emitted with ⟨e, hfailed⟩ | ⟨opcode, ty?, s', hmakes, hdone, he⟩
  · exact .inl ⟨e, Edit.map_failed hfailed _⟩
  · exact .inr ⟨_, s', Edit.map_done hdone _, he, hmakes.wellTyped, rfl, hmakes.exact⟩

/-! ## All calls -/

theorem Builder.defines_of_knows {v : ValueId} (h : knows p ⟨s, .atEnd p.entry, done⟩ v = true) :
    s.Defines p done v := by
  rw [knows, Bool.or_eq_true] at h
  rcases h with hinput | hresult
  · exact .inl (List.contains_iff_mem.1 hinput)
  · obtain ⟨o, ho, hresult⟩ := List.any_eq_true.1 hresult
    exact .inr ⟨o, ho, of_decide_eq_true hresult⟩

/-- The constants of operations are as their texts are read. -/
def Store.ExactOn (s : Store) (ops : List OpId) : Prop :=
  ∀ o ∈ ops, ∀ d, s.ops[o.index]? = some d → Operation.Exact d.opcode d.resultTy?

theorem Builder.Call.Emits.exactOn {call : Call} {draft : Draft} {s' : Store}
    (h : call.Emits s p done draft s') (hs : s.ExactOn done) :
    s'.ExactOn (done ++ [⟨s.ops.size⟩]) := by
  intro o ho d hd
  rw [h.emitted.getElem?_ops] at hd
  split at hd
  · cases hd
    exact h.exact
  · next hne =>
    refine hs o ?_ d hd
    rcases List.mem_append.1 ho with hold | hnew
    · exact hold
    · exact absurd (congrArg OpId.index (List.mem_singleton.1 hnew)) hne

/-- **Calls over values of the program** append operations to it, and never fault. -/
theorem Builder.attemptAll_appended (calls : List Call) (hs : s.Built p start done)
    (hknown : readsKnown p ⟨s, .atEnd p.entry, done⟩ calls = true) (hexact : s.ExactOn done) :
    ∃ s' done', attemptAll ⟨s, .atEnd p.entry, done⟩ calls = .ok ⟨s', .atEnd p.entry, done'⟩ ∧
      Appended p s done s' done' ∧ s'.ExactOn done' := by
  induction calls generalizing s done with
  | nil => exact ⟨s, done, rfl, .refl s done, hexact⟩
  | cons call rest ih =>
    rw [readsKnown, Bool.and_eq_true, List.all_eq_true] at hknown
    obtain ⟨hoperands, hrest⟩ := hknown
    have hdefines : ∀ v ∈ call.operands, s.Defines p done v := fun v hv =>
      defines_of_knows (hoperands v hv)
    rcases call.run_outcome hs hdefines done with ⟨e, hfailed⟩ | ⟨draft, s₁, hdone, he⟩
    · have hattempt : attempt ⟨s, .atEnd p.entry, done⟩ call = .ok ⟨s, .atEnd p.entry, done⟩ := by
        rw [attempt, hfailed]
      rw [hattempt] at hrest
      obtain ⟨s', done', hall, happended, hexact'⟩ := ih hs hrest hexact
      exact ⟨s', done', bind_eq_ok.2 ⟨_, hattempt, hall⟩, happended, hexact'⟩
    · have hattempt : attempt ⟨s, .atEnd p.entry, done⟩ call =
          .ok ⟨s₁, .atEnd p.entry, done ++ [⟨s.ops.size⟩]⟩ := by
        rw [attempt, hdone]
      have hreads : ∀ v ∈ draft.operands, s.Defines p done v := fun v hv =>
        hdefines v (he.operands ▸ hv)
      rw [hattempt] at hrest
      obtain ⟨s', done', hall, happended, hexact'⟩ :=
        ih (hs.emitted hreads he.typed he.emitted) hrest (he.exactOn hexact)
      exact ⟨s', done', bind_eq_ok.2 ⟨_, hattempt, hall⟩,
        .step hreads he.typed he.emitted happended, hexact'⟩

end Mba
