import Mba.Mutation.Expansion
import Mba.Proofs.Building

/-!
# What a template is emitted as

The code of a template is the list of the operations that it is emitted as, each reading `x`, `y` or
results of earlier ones. It depends on the width alone, and not on the numbers that operations and
values get in a store. A store in which code was emitted is *coded*: the operations of the code have
the next numbers in it, and all else is as it was.

Results:
* `Coded.push`: emitting one operation more.
* `Template.coded_of_emit`: emitting a template emits its code, and gives the result of the last
  operation.
-/

namespace Mba

namespace Template

/-- Where an operation of the code reads a word from. -/
inductive Source
  | x
  | y
  /-- The result of the operation of the code at this index. -/
  | result (index : Nat)
  deriving DecidableEq, Repr

/-- An operation of the code. -/
structure Instruction where
  opcode : Opcode
  operands : List Source
  deriving DecidableEq, Repr

/-- Where an operand of a step is found, and the code that gets it there. -/
def Operand.code (w : Width) (temps : List Source) (code : List Instruction) :
    Operand → Source × List Instruction
  | .x => (.x, code)
  | .y => (.y, code)
  | .lit value => (.result code.length, code ++ [⟨.const (w.ofInt value), []⟩])
  | .tmp step => (temps[step]?.getD .x, code)

/-- The code with a step; its result is that of the last operation. -/
def Step.code (w : Width) (temps : List Source) (code : List Instruction) :
    Step → List Instruction
  | .unary op a =>
    let (a, code) := a.code w temps code
    code ++ [⟨.unary op, [a]⟩]
  | .binary op a b =>
    let (a, code) := a.code w temps code
    let (b, code) := b.code w temps code
    code ++ [⟨.binary op, [a, b]⟩]

/-- The code with steps in order. -/
def codeSteps (w : Width) : List Step → List Source → List Instruction → List Instruction
  | [], _, code => code
  | step :: rest, temps, code =>
    let code := step.code w temps code
    codeSteps w rest (temps ++ [.result (code.length - 1)]) code

/-- **The code of a template** for words of width `w`. -/
def code (t : Template) (w : Width) : List Instruction :=
  codeSteps w t.steps [] []

/-- The value that is read, where the results of the code have the numbers from `first` on. -/
def Source.value (x y : ValueId) (first : Nat) : Source → ValueId
  | .x => x
  | .y => y
  | .result index => ⟨first + index⟩

/-- Whether a source can be read behind `n` operations. -/
def Source.Ready (n : Nat) : Source → Prop
  | .x | .y => True
  | .result index => index < n

theorem Source.Ready.mono {n m : Nat} {a : Source} (h : a.Ready n) (hle : n ≤ m) : a.Ready m := by
  cases a with
  | x | y => trivial
  | result index => exact Nat.lt_of_lt_of_le (show index < n from h) hle

/-- The operation of an instruction in a store, if it is the one at index `k` of the code, which has
the numbers from those of `s` on. -/
def Instruction.operation (i : Instruction) (s : Store) (b : BlockId) (x y : ValueId) (w : Width)
    (k : Nat) : Operation :=
  ⟨i.opcode, i.operands.map (Source.value x y s.values.size), some (.int w),
    some ⟨s.values.size + k⟩, some b⟩

end Template

namespace Store

open Template

variable {s s' s'' : Store} {b : BlockId} {x y : ValueId} {w : Width} {code : List Instruction}

/-- The second store is the first one with code for `x` and `y` emitted in the block `b`. -/
structure Coded (s : Store) (b : BlockId) (x y : ValueId) (w : Width) (code : List Instruction)
    (s' : Store) : Prop where
  consistent : s'.Consistent
  size_ops : s'.ops.size = s.ops.size + code.length
  size_values : s'.values.size = s.values.size + code.length
  values : ∀ i, i < s.values.size → s'.values[i]? = s.values[i]?
  entries : ∀ k i, code[k]? = some i → s'.ops[s.ops.size + k]? = some (i.operation s b x y w k)
  uses : ∀ v, v.index < s.values.size → v ≠ x → v ≠ y → s'.uses v = s.uses v

theorem Coded.nil (hs : s.Consistent) : s.Coded b x y w [] s :=
  ⟨hs, rfl, rfl, fun _ _ => rfl, nofun, fun _ _ _ _ => rfl⟩

/-- **Emitting one operation more.** -/
theorem Coded.push (h : s.Coded b x y w code s') {listing : List OpId} {i : Instruction}
    (he : s'.Emitted b listing
      ⟨i.opcode, i.operands.map (Source.value x y s.values.size), some (.int w), none⟩ s'') :
    s.Coded b x y w (code ++ [i]) s'' := by
  have hops := h.size_ops
  have hvalues := h.size_values
  constructor
  case consistent => exact he.consistent
  case size_ops => rw [he.ops, Array.size_push, List.length_append, List.length_singleton]; omega
  case size_values => rw [he.values, Array.size_push, List.length_append, List.length_singleton]; omega
  case values =>
    intro j hj
    rw [he.values_of_lt (by omega), h.values j hj]
  case entries =>
    intro k i' hk
    rw [List.getElem?_append] at hk
    split at hk
    · next hlt => rw [he.ops_of_some (h.entries k i' hk)]
    · next hge =>
      obtain rfl : k = code.length := by
        have := (List.getElem?_eq_some_iff.1 hk).1
        rw [List.length_singleton] at this
        omega
      obtain rfl : i = i' := by simpa using hk
      rw [he.getElem?_ops, if_pos hops.symm, Draft.placed, hvalues]
      rfl
  case uses =>
    intro v hv hx hy
    rw [he.uses, slotsReading_eq_nil, List.append_nil, h.uses v hv hx hy]
    intro hmem
    obtain ⟨a, -, rfl⟩ := List.mem_map.1 hmem
    cases a with
    | x => exact hx rfl
    | y => exact hy rfl
    | result index =>
      have : s.values.size + index < s.values.size := hv
      omega

/-- What can be read is of the width. -/
theorem Coded.ty (h : s.Coded b x y w code s') (hx : s.values[x.index]?.map (·.ty) = some (.int w))
    (hy : s.values[y.index]?.map (·.ty) = some (.int w)) {a : Source} (ha : a.Ready code.length) :
    s'.values[(a.value x y s.values.size).index]?.map (·.ty) = some (.int w) := by
  have hkept : ∀ v : ValueId, s.values[v.index]?.map (·.ty) = some (.int w) →
      s'.values[v.index]?.map (·.ty) = some (.int w) := by
    intro v hv
    obtain ⟨value, hvalue, -⟩ := Option.map_eq_some_iff.1 hv
    rw [h.values _ (Array.getElem?_eq_some_iff.1 hvalue).1, hv]
  cases a with
  | x => exact hkept x hx
  | y => exact hkept y hy
  | result index =>
    have hindex : index < code.length := ha
    have hentry := h.entries index _ (List.getElem?_eq_getElem hindex)
    obtain ⟨ty, hty, hvalue⟩ := h.consistent.owned.result_origin ⟨s.ops.size + index⟩ _
      (result?_eq hentry)
    rw [resultTy?_eq hentry] at hty
    cases hty
    exact congrArg (Option.map (·.ty)) hvalue

end Store

/-! ## Emitting the code of a template -/

namespace Template

open Store

variable {s s' : Store} {x y : ValueId} {w : Width} {code : List Instruction}
  {point : InsertPoint} {emitted : List OpId} {temps : List Source} {v : ValueId} {b : Builder}

/-- The builder has emitted code, and stands where it stood. -/
structure Emits (s : Store) (point : InsertPoint) (x y : ValueId) (w : Width)
    (code : List Instruction) (b : Builder) : Prop where
  place : b.point = point
  coded : s.Coded point.block x y w code b.store

variable (hx : s.values[x.index]?.map (·.ty) = some (.int w))
  (hy : s.values[y.index]?.map (·.ty) = some (.int w))

theorem Emits.emitValue {b' : Builder} (h : Emits s point x y w code b) {i : Instruction}
    (hrun : Builder.emitValue i.opcode (i.operands.map (Source.value x y s.values.size)) (.int w) b =
      .done v b') :
    v = (Source.result code.length).value x y s.values.size ∧
      Emits s point x y w (code ++ [i]) b' := by
  obtain ⟨store, _, emitted⟩ := b
  obtain ⟨rfl, hcoded⟩ := h
  obtain ⟨target, listing, s'', -, -, rfl, rfl, he⟩ :=
    Builder.emitted_of_emitValue hcoded.consistent hrun
  refine ⟨?_, rfl, hcoded.push he⟩
  rw [Source.value, ← hcoded.size_values]

theorem Emits.operand {b' : Builder} (h : Emits s point x y w code b)
    (hready : ∀ a ∈ temps, a.Ready code.length) {a : Operand}
    (hrun : a.emit x y (.int w) (temps.map (Source.value x y s.values.size)) b = .done v b') :
    v = (a.code w temps code).1.value x y s.values.size ∧
      (a.code w temps code).1.Ready (a.code w temps code).2.length ∧
      code.length ≤ (a.code w temps code).2.length ∧
      Emits s point x y w (a.code w temps code).2 b' := by
  cases a with
  | x =>
    cases hrun
    exact ⟨rfl, trivial, Nat.le_refl _, h⟩
  | y =>
    cases hrun
    exact ⟨rfl, trivial, Nat.le_refl _, h⟩
  | lit value =>
    have hrun : Builder.int (.int w) value b = .done v b' := hrun
    obtain ⟨w', hw, hemit⟩ := Builder.int_done hrun
    cases hw
    obtain ⟨hv, hemits⟩ := h.emitValue (i := ⟨.const (w.ofInt value), []⟩) hemit
    exact ⟨hv, by simp [Operand.code, Source.Ready], by simp [Operand.code], hemits⟩
  | tmp step =>
    unfold Operand.emit at hrun
    obtain ⟨hread, rfl⟩ := Edit.read_eq_done.1 hrun
    rw [List.getElem?_map] at hread
    cases hstep : temps[step]? with
    | none => simp [hstep] at hread
    | some a =>
      have hv : a.value x y s.values.size = v := by simpa [hstep] using hread
      simp only [Operand.code, hstep, Option.getD_some]
      exact ⟨hv.symm, hready a (List.mem_of_getElem? hstep), Nat.le_refl _, h⟩

include hx hy in
theorem Emits.step {b' : Builder} (h : Emits s point x y w code b)
    (hready : ∀ a ∈ temps, a.Ready code.length) {step : Step}
    (hrun : step.emit x y (.int w) (temps.map (Source.value x y s.values.size)) b = .done v b') :
    v = (Source.result ((step.code w temps code).length - 1)).value x y s.values.size ∧
      code.length < (step.code w temps code).length ∧
      Emits s point x y w (step.code w temps code) b' := by
  cases step with
  | unary op a =>
    obtain ⟨u, b₁, hoperand, hcall⟩ := Edit.bind_eq_done.1 hrun
    obtain ⟨rfl, ha, hle, h₁⟩ := h.operand hready hoperand
    obtain ⟨ty, htyped, hemit⟩ := Builder.unary_done hcall
    cases htyped with
    | unary hty _ =>
      rw [h₁.coded.ty hx hy ha] at hty
      cases hty
      obtain ⟨hv, h₂⟩ := h₁.emitValue (i := ⟨.unary op, [_]⟩) hemit
      refine ⟨?_, ?_, h₂⟩ <;> simp only [Step.code, List.length_append, List.length_singleton]
      · exact hv
      · omega
  | binary op a a' =>
    obtain ⟨u, b₁, hoperand, hrest⟩ := Edit.bind_eq_done.1 hrun
    obtain ⟨rfl, ha, hle, h₁⟩ := h.operand hready hoperand
    obtain ⟨u', b₂, hoperand', hcall⟩ := Edit.bind_eq_done.1 hrest
    obtain ⟨rfl, ha', hle', h₂⟩ := h₁.operand (fun a ha => (hready a ha).mono hle) hoperand'
    obtain ⟨ty, htyped, hemit⟩ := Builder.binary_done hcall
    cases htyped with
    | binary hty _ _ =>
      rw [h₂.coded.ty hx hy (ha.mono hle')] at hty
      cases hty
      obtain ⟨hv, h₃⟩ := h₂.emitValue (i := ⟨.binary op, [_, _]⟩) hemit
      refine ⟨?_, ?_, h₃⟩ <;> simp only [Step.code, List.length_append, List.length_singleton]
      · exact hv
      · omega

include hx hy in
theorem Emits.steps {steps : List Step} {b' : Builder} {values : List ValueId}
    (h : Emits s point x y w code b) (hready : ∀ a ∈ temps, a.Ready code.length)
    (hrun : emitSteps x y (.int w) steps (temps.map (Source.value x y s.values.size)) b =
      .done values b') :
    Emits s point x y w (codeSteps w steps temps code) b' ∧
      (steps ≠ [] → 0 < (codeSteps w steps temps code).length ∧ values.getLast? =
        some ⟨s.values.size + ((codeSteps w steps temps code).length - 1)⟩) := by
  induction steps generalizing temps code b with
  | nil =>
    cases hrun
    exact ⟨h, fun hne => absurd rfl hne⟩
  | cons step rest ih =>
    obtain ⟨v, b₁, hstep, hrest⟩ := Edit.bind_eq_done.1 hrun
    obtain ⟨rfl, hlt, h₁⟩ := h.step hx hy hready hstep
    let code₁ := step.code w temps code
    have hready₁ : ∀ a ∈ temps ++ [Source.result (code₁.length - 1)], a.Ready code₁.length := by
      intro a ha
      rcases List.mem_append.1 ha with hold | hnew
      · exact (hready a hold).mono (Nat.le_of_lt hlt)
      · obtain rfl := List.mem_singleton.1 hnew
        show code₁.length - 1 < code₁.length
        have : code.length < code₁.length := hlt
        omega
    have hrest₁ : emitSteps x y (.int w) rest
        ((temps ++ [Source.result (code₁.length - 1)]).map (Source.value x y s.values.size)) b₁ =
        .done values b' := by
      rw [List.map_append]
      exact hrest
    obtain ⟨h₂, hlast⟩ := ih h₁ hready₁ hrest₁
    refine ⟨h₂, fun _ => ?_⟩
    cases rest with
    | nil =>
      cases hrest₁
      refine ⟨Nat.zero_lt_of_lt hlt, ?_⟩
      rw [List.map_append, List.map_singleton, List.getLast?_concat]
      rfl
    | cons _ _ => exact hlast (List.cons_ne_nil _ _)

theorem adopt_eq_ok {u : ValueId} (h : b.adopt u = .ok v) : v = u := by
  obtain ⟨visible, -, hvisible⟩ := bind_eq_ok.1 h
  cases visible with
  | true =>
    cases hvisible
    rfl
  | false => cases hvisible

include hx hy in
/-- **Emitting a template emits its code**, and gives the result of the last operation. -/
theorem coded_of_emit (hs : s.Consistent) {t : Template} (ht : t.steps ≠ [])
    (h : t.emit x y (.int w) (Builder.start s point) = .done v b) :
    s.Coded point.block x y w (t.code w) b.store ∧ 0 < (t.code w).length ∧
      v = ⟨s.values.size + ((t.code w).length - 1)⟩ := by
  unfold emit at h
  obtain ⟨x', b₁, hadopt, hrest⟩ := Edit.bind_eq_done.1 h
  obtain ⟨y', b₂, hadopt', hrest'⟩ := Edit.bind_eq_done.1 hrest
  obtain ⟨values, b₃, hsteps, hpure⟩ := Edit.bind_eq_done.1 hrest'
  obtain ⟨hx', rfl⟩ := Edit.read_eq_done.1 hadopt
  obtain ⟨hy', rfl⟩ := Edit.read_eq_done.1 hadopt'
  rw [adopt_eq_ok hx', adopt_eq_ok hy'] at hsteps
  have hstart : Emits s point x y w [] (Builder.start s point) := ⟨rfl, .nil hs⟩
  obtain ⟨hemits, hlast⟩ := hstart.steps hx hy (List.forall_mem_nil _) hsteps
  obtain ⟨hpos, hlast⟩ := hlast ht
  cases hpure
  rw [hlast]
  exact ⟨hemits.coded, hpos, rfl⟩

end Template

end Mba
