import Mba.Proofs.Mutation.Removal
import Mba.Proofs.Mutation.Round

/-!
# All or nothing

A mutation changes the store step by step, and any step may fail in principle. None does: all that
can be wrong with an operation is found before the first change. From there on, the operation is
eligible and placed, and its operands are visible. So its block lists it, every place before it
exists, and the shape of the template leaves nothing for the checks of types to refuse.

None of this needs a valid program. The operation may stand anywhere in a reachable store, and read
its own result or that of a later operation, as long as what it reads are values.

Results:
* `Builder.adopt_outcome`: asking whether a value is visible never faults.
* `Template.exists_emit`: a well-shaped template is emitted at every place that exists.
* `Store.expand_outcome`: an expansion is refused before anything is changed, or goes through.
* `Bench.mutate_allOrNothing`: a mutation is refused before anything is changed, or takes the
  operation out and leaves nothing that reads its result.
-/

namespace Mba

open Store

/-! ## Places that exist -/

/-- The block of the place exists, and lists the operation to build before. -/
def InsertPoint.Exists (point : InsertPoint) (s : Store) : Prop :=
  ∃ target, s.blocks[point.block.index]? = some target ∧ ∀ b anchor, point = .before b anchor →
    anchor ∈ target.ops

variable {s s' : Store} {point : InsertPoint} {b : Builder} {v : ValueId}

/-- There is a place for an operation, and it exists still when the operation is there. -/
theorem InsertPoint.Exists.exists_places (h : point.Exists s) (o : OpId) :
    ∃ target listing, s.blocks[point.block.index]? = some target ∧
      Builder.Places point target.ops o listing ∧
      ∀ b anchor, point = .before b anchor → anchor ∈ listing := by
  obtain ⟨target, htarget, hanchor⟩ := h
  cases point with
  | atEnd block => exact ⟨target, _, htarget, rfl, nofun⟩
  | before block anchor =>
    have hmem := hanchor block anchor rfl
    obtain ⟨place, hplace⟩ := Option.isSome_iff_exists.1 (List.isSome_idxOf?.2 hmem)
    have hle : place ≤ target.ops.length := by
      obtain ⟨hlt, -⟩ := List.idxOf?_eq_some_iff.1 hplace
      omega
    refine ⟨target, _, htarget, ⟨place, hplace, rfl⟩, ?_⟩
    rintro _ _ ⟨⟩
    exact (List.perm_insertIdx o target.ops hle).mem_iff.2 (List.mem_cons_of_mem _ hmem)

/-- **Asking whether a value is visible never faults.** -/
theorem Builder.adopt_outcome (hs : b.store.Consistent) (hplace : b.point.Exists b.store)
    (hv : b.store.isAllocated v = true) :
    b.adopt v = .ok v ∨ b.adopt v = Attempt.fail (.notVisible v) ∧ b.isVisible v = .ok false := by
  suffices hvisible : ∃ visible, b.isVisible v = .ok visible by
    obtain ⟨visible, hvisible⟩ := hvisible
    unfold adopt
    rw [hvisible]
    cases visible with
    | true => exact .inl rfl
    | false => exact .inr ⟨rfl, rfl⟩
  obtain ⟨target, htarget, -⟩ := hplace
  obtain ⟨⟨origin, ty⟩, hvalue⟩ : ∃ value, b.store.values[v.index]? = some value :=
    ⟨_, Array.getElem?_eq_getElem (of_decide_eq_true hv)⟩
  have hblock : b.store.block b.point.block = .ok target := block_eq_ok_iff.2 htarget
  cases origin with
  | argument home i =>
    exact ⟨_, by simp [isVisible, hv, value, hvalue, bind, Except.bind, pure, Except.pure]; rfl⟩
  | result definer =>
    -- the operation that defines a value has an entry
    obtain ⟨d, hd, -⟩ := Option.bind_eq_some_iff.1 (hs.owned.origin_result definer v ty hvalue)
    have hop : b.store.op definer = .ok d := op_eq_ok_iff.2 hd
    simp only [isVisible, hv, value, hvalue, hop, position?, hblock, bind, Except.bind, pure,
      Except.pure, Except.map, Bool.not_true, Bool.false_eq_true, if_false]
    split
    · exact ⟨_, rfl⟩
    split
    · exact ⟨_, rfl⟩
    · exact ⟨_, rfl⟩
    · split <;> exact ⟨_, rfl⟩

/-! ## Emitting at a place that exists -/

namespace Template

variable {x y : ValueId} {w : Width} {code : List Instruction} {temps : List Source}

/-- The builder has emitted code at a place that exists, and has kept the operations of the
start. -/
structure Stands (s : Store) (point : InsertPoint) (x y : ValueId) (w : Width)
    (code : List Instruction) (b : Builder) : Prop where
  emits : Emits s point x y w code b
  place : point.Exists b.store
  ops : ∀ (i : Nat) d, s.ops[i]? = some d → b.store.ops[i]? = some d

/-- **An operation more can be emitted.** -/
theorem Stands.exists_emitValue (h : Stands s point x y w code b) (i : Instruction) :
    ∃ v b', Builder.emitValue i.opcode (i.operands.map (Source.value x y s.values.size)) (.int w) b =
        .done v b' ∧ v = (Source.result code.length).value x y s.values.size ∧
      Stands s point x y w (code ++ [i]) b' := by
  obtain ⟨store, _, emitted⟩ := b
  obtain ⟨⟨rfl, hcoded⟩, hplace, hops⟩ := h
  dsimp only at hplace hops hcoded
  obtain ⟨target, listing, htarget, hplaces, hanchor⟩ := hplace.exists_places ⟨store.ops.size⟩
  obtain ⟨s₁, hdone, he⟩ := Builder.emitValue_eq_done hcoded.consistent _ i.opcode
    (i.operands.map (Source.value x y s.values.size)) (.int w) htarget hplaces emitted
  obtain ⟨hv, hemits⟩ := (show Emits s _ x y w code _ from ⟨rfl, hcoded⟩).emitValue hdone
  refine ⟨_, _, hdone, hv, hemits, ⟨{ target with ops := listing }, ?_, hanchor⟩,
    fun j d hd => he.ops_of_some (hops j d hd)⟩
  rw [he.blocks, Array.getElem?_modify, if_pos rfl, htarget]
  rfl

theorem Stands.exists_operand (h : Stands s point x y w code b)
    (hready : ∀ a ∈ temps, a.Ready code.length) {a : Operand} (ha : a.Ready temps.length) :
    ∃ v b', a.emit x y (.int w) (temps.map (Source.value x y s.values.size)) b = .done v b' ∧
      v = (a.code w temps code).1.value x y s.values.size ∧
      (a.code w temps code).1.Ready (a.code w temps code).2.length ∧
      code.length ≤ (a.code w temps code).2.length ∧
      Stands s point x y w (a.code w temps code).2 b' := by
  cases a with
  | x => exact ⟨x, b, rfl, rfl, trivial, Nat.le_refl _, h⟩
  | y => exact ⟨y, b, rfl, rfl, trivial, Nat.le_refl _, h⟩
  | lit value =>
    obtain ⟨v, b', hdone, hv, h'⟩ := h.exists_emitValue ⟨.const (w.ofInt value), []⟩
    exact ⟨v, b', hdone, hv, by simp [Operand.code, Source.Ready], by simp [Operand.code], h'⟩
  | tmp step =>
    have hlt : step < temps.length := ha
    have hstep := List.getElem?_eq_getElem hlt
    refine ⟨temps[step].value x y s.values.size, b, ?_, ?_⟩
    · simp only [Operand.emit, Edit.read, List.getElem?_map, hstep, Option.map_some]
    · simp only [Operand.code, hstep, Option.getD_some]
      exact ⟨trivial, hready _ (List.getElem_mem hlt), Nat.le_refl _, h⟩

variable (hx : s.values[x.index]?.map (·.ty) = some (.int w))
  (hy : s.values[y.index]?.map (·.ty) = some (.int w))
include hx hy

theorem Stands.exists_step (h : Stands s point x y w code b)
    (hready : ∀ a ∈ temps, a.Ready code.length) {step : Step} (hstep : step.Sound temps.length) :
    ∃ v b', step.emit x y (.int w) (temps.map (Source.value x y s.values.size)) b = .done v b' ∧
      v = (Source.result ((step.code w temps code).length - 1)).value x y s.values.size ∧
      code.length < (step.code w temps code).length ∧
      Stands s point x y w (step.code w temps code) b' := by
  cases step with
  | unary op a =>
    obtain ⟨-, ha⟩ := hstep.unary
    obtain ⟨u, b₁, hdone, rfl, hu, hle, h₁⟩ := h.exists_operand hready ha
    have hty := h₁.emits.coded.ty hx hy hu
    obtain ⟨v, b', hemit, hv, h'⟩ := h₁.exists_emitValue ⟨.unary op, [_]⟩
    refine ⟨v, b', ?_, by simpa [Step.code] using hv, by simp [Step.code]; omega, h'⟩
    rw [Step.emit, Edit.bind_done hdone, Builder.unary_eq_emitValue hty (by cases op <;> rfl)]
    exact hemit
  | binary op a a' =>
    obtain ⟨-, ha, ha'⟩ := hstep.binary
    obtain ⟨u, b₁, hdone, rfl, hu, hle, h₁⟩ := h.exists_operand hready ha
    obtain ⟨u', b₂, hdone', rfl, hu', hle', h₂⟩ :=
      h₁.exists_operand (fun a ha => (hready a ha).mono hle) ha'
    have hty := h₂.emits.coded.ty hx hy (hu.mono hle')
    have hty' := h₂.emits.coded.ty hx hy hu'
    obtain ⟨v, b', hemit, hv, h'⟩ := h₂.exists_emitValue ⟨.binary op, [_, _]⟩
    refine ⟨v, b', ?_, by simpa [Step.code] using hv, by simp [Step.code]; omega, h'⟩
    rw [Step.emit, Edit.bind_done hdone, Edit.bind_done hdone',
      Builder.binary_eq_emitValue hty hty' (by simp [BinaryOp.accepts, Ty.isInt, Ty.isNumeric])]
    exact hemit

theorem Stands.exists_steps {steps : List Step} (h : Stands s point x y w code b)
    (hready : ∀ a ∈ temps, a.Ready code.length) (hsound : Sound temps.length steps) :
    ∃ values b' code', emitSteps x y (.int w) steps (temps.map (Source.value x y s.values.size)) b =
      .done values b' ∧ Stands s point x y w code' b' := by
  induction steps generalizing temps code b with
  | nil => exact ⟨_, b, code, rfl, h⟩
  | cons step rest ih =>
    obtain ⟨v, b₁, hdone, rfl, hlt, h₁⟩ := h.exists_step hx hy hready hsound.1
    let code₁ := step.code w temps code
    have hready₁ : ∀ a ∈ temps ++ [Source.result (code₁.length - 1)], a.Ready code₁.length := by
      intro a ha
      rcases List.mem_append.1 ha with hold | hnew
      · exact (hready a hold).mono (Nat.le_of_lt hlt)
      · obtain rfl := List.mem_singleton.1 hnew
        exact Nat.sub_one_lt_of_lt hlt
    have hsound₁ : Sound (temps ++ [Source.result (code₁.length - 1)]).length rest := by
      rw [List.length_append]
      exact hsound.2
    obtain ⟨values, b', code', hrest, h'⟩ := ih h₁ hready₁ hsound₁
    refine ⟨values, b', code', ?_, h'⟩
    rw [emitSteps, Edit.bind_done hdone]
    rwa [List.map_append] at hrest

omit hx hy in
theorem read_adopt (hadopt : b.adopt v = .ok v) :
    (Edit.read fun b => b.adopt v : Edit Builder BuildError ValueId) b = .done v b :=
  Edit.read_done hadopt

/-- **A well-shaped template is emitted at every place that exists**, once its inputs have been
found to be visible there. -/
theorem exists_emit (hs : s.Consistent) (hplace : point.Exists s) {t : Template}
    (ht : t.WellShaped) (hadopt : (Builder.start s point).adopt x = .ok x)
    (hadopt' : (Builder.start s point).adopt y = .ok y) :
    ∃ v b code, t.emit x y (.int w) (Builder.start s point) = .done v b ∧
      Stands s point x y w code b := by
  have hstart : Stands s point x y w [] (Builder.start s point) :=
    ⟨⟨rfl, .nil hs⟩, hplace, fun _ _ hd => hd⟩
  obtain ⟨values, b, code, hsteps, h⟩ := hstart.exists_steps hx hy
    (show ∀ a ∈ ([] : List Source), a.Ready 0 from nofun) (t.wellShaped_iff.1 ht).2
  refine ⟨values.getLast?.getD x, b, code, ?_, h⟩
  rw [emit, Edit.bind_done (read_adopt hadopt), Edit.bind_done (read_adopt hadopt')]
  exact Edit.bind_done hsteps

end Template

/-! ## Expansions -/

namespace Store

variable {c : Catalog} {o : OpId} {d : Operation} {op : BinaryOp} {index : Nat}

/-- Why mutating an operation is refused. -/
inductive Refusal (c : Catalog) (s : Store) (o : OpId) : MutationError → Prop
  | ineligible {reason : Ineligibility} (h : s.eligibility o = .error (.error reason)) :
      Refusal c s o (.ineligible o reason)
  | missingTemplates {op : BinaryOp} (h : s.eligibility o = .ok op) (hnone : c.templates op = []) :
      Refusal c s o (.missingTemplates op)
  | detached {op : BinaryOp} (h : s.eligibility o = .ok op) (hparent : s.parent? o = none) :
      Refusal c s o (.build (.detached o))
  /-- An operand is not defined before the operation in its block. -/
  | notVisible {op : BinaryOp} {d : Operation} {b : BlockId} {v : ValueId}
      (h : s.eligibility o = .ok op) (hd : s.ops[o.index]? = some d) (hv : v ∈ d.operands)
      (hparent : d.parent? = some b)
      (hidden : (Builder.start s (.before b o)).isVisible v = .ok false) :
      Refusal c s o (.build (.notVisible v))

/-- The catalog has templates for the operator of an eligible operation, but fewer than the index
asks for. -/
structure OutOfRange (c : Catalog) (s : Store) (o : OpId) (index : Nat) (op : BinaryOp) : Prop where
  eligible : s.eligibility o = .ok op
  nonempty : c.templates op ≠ []
  beyond : (c.templates op).length ≤ index

/-- What an expansion that goes through has found, and what it has left. -/
structure Prepared (s : Store) (o : OpId) (d : Operation) (e : Expansion) (s' : Store) : Prop where
  consistent : s'.Consistent
  entry : s'.ops[o.index]? = some d
  placed : ∃ b target, d.parent? = some b ∧ s'.blocks[b.index]? = some target
  result : ∃ old, d.result? = some old ∧ old ≠ e.result

/-- The template of an operation that is not eligible is not looked for. -/
theorem expand_of_ineligible {reason : Ineligibility}
    (he : s.eligibility o = .error (.error reason)) :
    expand c o index s = .failed (.ineligible o reason) s :=
  Edit.bind_failed (Edit.read_failed (by rw [operatorOf, he]; rfl))

/-- The place of an operation is not looked for before its template is found. -/
theorem expand_of_template {e : MutationError} (he : s.eligibility o = .ok op)
    (ht : c.template op index = .error (.error e)) : expand c o index s = .failed e s := by
  have hoperator : (Edit.read (operatorOf · o) : Edit Store MutationError _) s = .done op s :=
    Edit.read_done (by rw [operatorOf, he]; rfl)
  exact (Edit.bind_done hoperator).trans (Edit.bind_failed (Edit.read_failed ht))

/-- Looking for a template finds it, or stops in one of two ways. -/
theorem template_outcome (c : Catalog) (op : BinaryOp) (index : Nat) :
    (∃ t, (c.templates op)[index]? = some t) ∨
      c.templates op = [] ∧ c.template op index = Attempt.fail (.missingTemplates op) ∨
      c.templates op ≠ [] ∧ (c.templates op).length ≤ index ∧
        c.template op index = Attempt.fail (.templateIndex op index (c.templates op).length) := by
  unfold Catalog.template
  cases hlist : c.templates op with
  | nil => exact .inr (.inl ⟨rfl, rfl⟩)
  | cons t rest =>
    cases hfound : (t :: rest)[index]? with
    | some found => exact .inl ⟨found, rfl⟩
    | none =>
      refine .inr (.inr ⟨List.cons_ne_nil _ _, List.getElem?_eq_none_iff.1 hfound, ?_⟩)
      simp only [List.isEmpty_cons, Bool.false_eq_true, if_false, hfound]

/-- An operand that is not visible stops the emission before its first operation. -/
theorem expand_of_hidden (he : s.eligibility o = .ok op) {t : Template}
    (ht : (c.templates op)[index]? = some t) (hd : s.ops[o.index]? = some d) {x y : ValueId}
    {w : Width} (hoperands : d.operands = [x, y])
    (hx : s.values[x.index]?.map (·.ty) = some (.int w)) {home : BlockId}
    (hparent : d.parent? = some home) {v : ValueId}
    (hemit : t.emit x y (.int w) (Builder.start s (.before home o)) =
      .failed (.notVisible v) (Builder.start s (.before home o))) :
    expand c o index s = .failed (.build (.notVisible v)) s := by
  have hread : (Edit.read (placeBefore · o) : Edit Store MutationError _) s =
      .done (.before home o) s := Edit.read_done (placeBefore_eq_ok hd hparent)
  have hbuild : (Store.build (.before home o) (t.emit x y (.int w))) s =
      .failed (.notVisible v) s := by
    rw [Store.build, hemit]
    rfl
  rw [expand_eq_place he ht hd hoperands hx]
  refine (Edit.bind_done hread).trans ?_
  exact Edit.bind_failed (Edit.mapError_failed hbuild _)

/-- **What an eligible operation that is placed comes to**, where the template is found: an operand
is not visible, or the expansion goes through. -/
theorem expand_outcome_of_placed (hs : s.Consistent) (hhoused : s.Housed)
    (he : s.eligibility o = .ok op) {t : Template} (ht : (c.templates op)[index]? = some t)
    (hd : s.ops[o.index]? = some d) {x y : ValueId} {w : Width} (hoperands : d.operands = [x, y])
    (hx : s.values[x.index]?.map (·.ty) = some (.int w))
    (hy : s.values[y.index]?.map (·.ty) = some (.int w)) (hty : d.resultTy? = some (.int w))
    {home : BlockId} (hparent : d.parent? = some home) :
    (∃ e s', expand c o index s = .done e s' ∧ s.Prepared o d e s') ∨
      ∃ v ∈ d.operands, expand c o index s = .failed (.build (.notVisible v)) s ∧
        (Builder.start s (.before home o)).isVisible v = .ok false := by
  have hplace : (InsertPoint.before home o).Exists s := by
    obtain ⟨target, htarget, hmem⟩ := hhoused o home ((parent?_eq hd).trans hparent)
    refine ⟨target, htarget, ?_⟩
    rintro _ _ ⟨⟩
    exact hmem
  have hallocated : ∀ v : ValueId, s.values[v.index]?.map (·.ty) = some (.int w) →
      s.isAllocated v = true := by
    intro v hv
    obtain ⟨value, hvalue, -⟩ := Option.map_eq_some_iff.1 hv
    exact decide_eq_true (Array.getElem?_eq_some_iff.1 hvalue).1
  have hhidden := fun v => expand_of_hidden he ht hd hoperands hx hparent (v := v)
  rcases Builder.adopt_outcome (b := Builder.start s (.before home o)) hs hplace (hallocated x hx)
    with hadopt | ⟨hfail, hvisible⟩
  · rcases Builder.adopt_outcome (b := Builder.start s (.before home o)) hs hplace (hallocated y hy)
      with hadopt' | ⟨hfail, hvisible⟩
    · have hshape := c.wellShaped op t (List.mem_of_getElem? ht)
      obtain ⟨v, builder, code, hemit, hstands⟩ :=
        Template.exists_emit hx hy hs hplace hshape hadopt hadopt'
      obtain ⟨-, -, hv⟩ :=
        Template.coded_of_emit hx hy hs (t.wellShaped_iff.1 hshape).1 hemit
      obtain ⟨old, hold, hlt⟩ := hs.owned.exists_result hd hty
      obtain ⟨target, htarget, -⟩ := hstands.place
      refine .inl ⟨_, builder.store, expand_of_emit he ht hd hoperands hx hparent hemit,
        hstands.emits.coded.consistent, hstands.ops _ d hd, ⟨home, target, hparent, htarget⟩,
        old, hold, ?_⟩
      -- the result was there before the emission, and the value of the template was not
      rintro rfl
      have hge : old.index = s.values.size + _ := congrArg ValueId.index hv
      omega
    · refine .inr ⟨y, by simp [hoperands], hhidden y ?_, hvisible⟩
      rw [Template.emit, Edit.bind_done (Template.read_adopt hadopt)]
      exact Edit.bind_failed (Edit.read_failed hfail)
  · refine .inr ⟨x, by simp [hoperands], hhidden x ?_, hvisible⟩
    exact Edit.bind_failed (Edit.read_failed hfail)

/-- **An expansion is refused before anything is changed, or goes through.** -/
theorem expand_outcome (hs : s.Consistent) (hhoused : s.Housed) (hd : s.ops[o.index]? = some d)
    (hallocated : ∀ v ∈ d.operands, s.isAllocated v = true) (c : Catalog) (index : Nat) :
    (∃ e s', expand c o index s = .done e s' ∧ s.Prepared o d e s') ∨
      ∃ e, expand c o index s = .failed e s ∧ (s.Refusal c o e ∨
        ∃ op, s.OutOfRange c o index op ∧ e = .templateIndex op index (c.templates op).length) := by
  cases he : s.eligibility o with
  | error stop =>
    cases stop with
    | fault f => exact absurd he (eligibility_ne_fault hd hallocated f)
    | error reason => exact .inr ⟨_, expand_of_ineligible he, .inl (.ineligible he)⟩
  | ok op =>
    obtain ⟨d', x, y, w, hd', -, -, hoperands, hx, hy, hty⟩ := eligibility_ok he
    obtain rfl : d = d' := Option.some.inj (hd.symm.trans hd')
    rcases template_outcome c op index with ⟨t, ht⟩ | ⟨hnone, ht⟩ | ⟨hne, hge, ht⟩
    · cases hparent : d.parent? with
      | none =>
        have hplace : placeBefore s o = Attempt.fail (.build (.detached o)) := by
          have hpoint : Builder.pointBefore s o = Attempt.fail (.detached o) := by
            simp only [Builder.pointBefore, op_lift hd, bind, Except.bind, hparent]
          rw [placeBefore, hpoint]
          rfl
        refine .inr ⟨_, ?_, .inl (.detached he ((parent?_eq hd).trans hparent))⟩
        rw [expand_eq_place he ht hd hoperands hx]
        exact Edit.bind_failed (Edit.read_failed hplace)
      | some home =>
        rcases expand_outcome_of_placed hs hhoused he ht hd hoperands hx hy hty hparent with
          hdone | ⟨v, hv, hfailed, hidden⟩
        · exact .inl hdone
        · exact .inr ⟨_, hfailed, .inl (.notVisible he hd hv hparent hidden)⟩
    · exact .inr ⟨_, expand_of_template he ht, .inl (.missingTemplates he hnone)⟩
    · exact .inr ⟨_, expand_of_template he ht, .inr ⟨op, ⟨he, hne, hge⟩, rfl⟩⟩

/-! ## Mutations -/

/-- The operation was taken out: it is not placed any more and has no operands, and nothing reads
its result. -/
structure Gone (s : Store) (o : OpId) (s' : Store) : Prop where
  entry : ∃ d, s'.ops[o.index]? = some d ∧ d.parent? = none ∧ d.operands = []
  /-- The block in which it was placed does not list it. -/
  unlisted : ∃ b, s.parent? o = some b ∧ ∀ e, s'.blocks[b.index]? = some e → o ∉ e.ops
  unread : ∃ v, s'.result? o = some v ∧ s'.readCount v = 0

/-- **What was expanded can be rebound.** -/
theorem Prepared.exists_rebind {e : Expansion} (h : s.Prepared o d e s')
    (hd : s.ops[o.index]? = some d) :
    ∃ n s'', Store.rebind o e.result s' = .done n s'' ∧ s.Gone o s'' := by
  obtain ⟨b, target, hparent, htarget⟩ := h.placed
  obtain ⟨old, hold, hne⟩ := h.result
  obtain ⟨s'', hdone, hrebound⟩ := rebind_eq_done h.consistent h.entry hold hparent htarget hne
  refine ⟨_, s'', hdone, ⟨_, hrebound.entry h.entry, rfl, rfl⟩,
    ⟨b, (parent?_eq hd).trans hparent, fun e' he' hmem => ?_⟩,
    ⟨old, (result?_eq (hrebound.entry h.entry)).trans hold,
      hrebound.readCount_old fun heq => absurd heq.symm hne⟩⟩
  rw [hrebound.blocks, Array.getElem?_modify, if_pos rfl, htarget] at he'
  cases he'
  simp at hmem

end Store

namespace Bench

variable {γ : Type} [RandomSource γ] {o : OpId} {d : Operation}

/-- **A mutation is all or nothing**, for every operation of a reachable store whose operands are
values, in a valid program or not, and for every catalog and random source. Either it is refused,
and the store is as it was, or the operation is taken out, with nothing left that reads its result.
An expansion by a given template is refused in one case more, that there is no such template, and
then changes nothing either. -/
theorem mutate_allOrNothing {b : Bench γ} (hs : b.store.Reachable)
    (hd : b.store.ops[o.index]? = some d)
    (hallocated : ∀ v ∈ d.operands, b.store.isAllocated v = true) (c : Catalog) :
    ((∃ record s' source, mutate c o b = .done record ⟨s', source⟩ ∧ b.store.Gone o s') ∨
      ∃ e source, mutate c o b = .failed e ⟨b.store, source⟩ ∧ b.store.Refusal c o e) ∧
      ∀ index, (∃ e s', Store.expand c o index b.store = .done e s') ∨
        ∃ e, Store.expand c o index b.store = .failed e b.store ∧ (b.store.Refusal c o e ∨
          ∃ op, b.store.OutOfRange c o index op ∧
            e = .templateIndex op index (c.templates op).length) := by
  obtain ⟨s, source⟩ := b
  have hexpand := Store.expand_outcome hs.consistent hs.housed hd hallocated c
  refine ⟨?_, fun index => ?_⟩
  swap
  · rcases hexpand index with ⟨e, s', hdone, -⟩ | hrefused
    · exact .inl ⟨e, s', hdone⟩
    · exact .inr hrefused
  cases he : s.eligibility o with
  | error stop =>
    cases stop with
    | fault f => exact absurd he (eligibility_ne_fault hd hallocated f)
    | error reason =>
      obtain ⟨instruction, -, hprint⟩ := exists_printOp hd source
      have hoperator : (Edit.read fun b => b.store.operatorOf o :
          Edit (Bench γ) MutationError BinaryOp) ⟨s, source⟩ =
            .failed (.ineligible o reason) ⟨s, source⟩ :=
        Edit.read_failed (by show operatorOf s o = _; rw [operatorOf, he]; rfl)
      exact .inr ⟨_, source, (Edit.bind_done hprint).trans
        (Edit.bind_failed (Edit.bind_failed hoperator)), .ineligible he⟩
  | ok op =>
    by_cases hempty : c.templates op = []
    · exact .inr ⟨_, source, mutate_of_templates_nil hd he hempty source,
        .missingTemplates he hempty⟩
    obtain ⟨instruction, index, source', -, hlt, hmutate⟩ :=
      exists_mutate_eq hd he (List.length_pos_iff.2 hempty) source
    rw [hmutate]
    rcases hexpand index with ⟨e, s₁, hdone, h₁⟩ | ⟨e, hfailed, hrefused⟩
    · obtain ⟨n, s₂, hrebind, hgone⟩ := h₁.exists_rebind hd
      have hall : mutateAt c instruction o index s = .done
          ⟨instruction, e.operator, e.index, e.template.formula, e.emitted.length, n⟩ s₂ :=
        (Edit.bind_done hdone).trans (Edit.bind_done hrebind)
      exact .inl ⟨_, s₂, source', onStore_done hall source', hgone⟩
    · have hall : mutateAt c instruction o index s = .failed e s := Edit.bind_failed hfailed
      refine .inr ⟨e, source', by simp only [onStore, hall], hrefused.resolve_right ?_⟩
      -- the index was drawn below the number of templates
      rintro ⟨op', hrange, -⟩
      obtain rfl : op = op' := Except.ok.inj (he.symm.trans hrange.eligible)
      exact Nat.not_lt.2 hrange.beyond hlt

/-- A sum is taken out. The first operation of the other store, which reads its own result, is
refused. -/
theorem mutate_allOrNothing_sum_loop :
    let sum : Bench Script := ⟨sumStore, Script.ofWords [5]⟩
    let loop : Bench Script := ⟨loopStore, Script.ofWords [5]⟩
    (∃ record s' source, mutate Catalog.standard ⟨0⟩ sum = .done record ⟨s', source⟩ ∧
        sumStore.Gone ⟨0⟩ s') ∧
      ∃ e source, mutate Catalog.standard ⟨0⟩ loop = .failed e ⟨loopStore, source⟩ ∧
        loopStore.Refusal Catalog.standard ⟨0⟩ e := by
  intro sum loop
  obtain ⟨hsum, -⟩ := mutate_allOrNothing (b := sum) reachable_sumStore (o := ⟨0⟩) rfl (by decide)
    Catalog.standard
  obtain ⟨hloop, -⟩ := mutate_allOrNothing (b := loop) reachable_loopStore (o := ⟨0⟩) rfl (by decide)
    Catalog.standard
  constructor
  · refine hsum.resolve_right ?_
    rintro ⟨e, source, hfailed, -⟩
    have hdone : (mutate Catalog.standard ⟨0⟩ sum).done?.isSome = true := by decide +kernel
    rw [hfailed] at hdone
    cases hdone
  · refine hloop.resolve_left ?_
    rintro ⟨record, s', source, hdone, -⟩
    have hnone : (mutate Catalog.standard ⟨0⟩ loop).done?.isNone = true := by decide +kernel
    rw [hdone] at hnone
    cases hnone

end Bench

end Mba
