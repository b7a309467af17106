import Mba.Mutation.Round
import Mba.Proofs.Mutation.Code
import Mba.Proofs.Mutation.Emission
import Mba.Proofs.Mutation.Rebinding
import Mba.Proofs.Store.Uses

/-!
# Replacing an operation

A `Replacement` records how an eligible operation of a valid program was replaced by a template: the
site before it, the emission, and the rebinding of its result to the value of the template.

Results:
* `eligibility_ok`: what an eligible operation looks like.
* `eligibility_cases`: asking for the eligibility of an operation faults iff it dangles.
* `Replacement.coded`: the code of the template is what has been emitted.
* `Replacement.valid`: the program is valid afterwards.
* `Bench.mutate_outcome`: mutating an eligible operation of a valid program either lacks templates,
  which changes nothing, or is a replacement by a template of the catalog, of which its record
  tells.
-/

namespace Mba

namespace Store

variable {s s' : Store} {p : Program} {o : OpId} {op : BinaryOp}

/-! ## Eligible operations -/

/-- **What an eligible operation looks like.** -/
theorem eligibility_ok (h : s.eligibility o = .ok op) :
    ∃ d x y w, s.ops[o.index]? = some d ∧ d.opcode = .binary op ∧ op.isSupported = true ∧
      d.operands = [x, y] ∧ s.values[x.index]?.map (·.ty) = some (.int w) ∧
      s.values[y.index]?.map (·.ty) = some (.int w) ∧ d.resultTy? = some (.int w) := by
  obtain ⟨d, hd, h⟩ := bind_eq_ok.1 h
  split at h
  · next op' hop =>
    split at h
    · cases h
    · next hsupported =>
      split at h
      · next x y hoperands =>
        obtain ⟨xTy, hx, h⟩ := bind_eq_ok.1 h
        obtain ⟨yTy, hy, h⟩ := bind_eq_ok.1 h
        split at h
        · cases h
        · next htys =>
          split at h
          · cases h
          · next hresult =>
            cases h
            obtain ⟨hsame, hint⟩ : xTy = yTy ∧ xTy.isInt = true := by simpa using htys
            subst hsame
            obtain ⟨w, rfl⟩ : ∃ w, xTy = .int w := by
              cases xTy <;> first | exact ⟨_, rfl⟩ | cases hint
            refine ⟨d, x, y, w, op_eq_ok_iff.1 (lift_eq_ok.1 hd), hop, by simpa using hsupported,
              hoperands, valueTy_eq_ok_iff.1 (lift_eq_ok.1 hx),
              valueTy_eq_ok_iff.1 (lift_eq_ok.1 hy), by simpa using hresult⟩
      · cases h
  · cases h

theorem eligibility_eq_ok {d : Operation} {x y : ValueId} {w : Width}
    (hd : s.ops[o.index]? = some d) (hop : d.opcode = .binary op) (hsupported : op.isSupported = true)
    (hoperands : d.operands = [x, y]) (hx : s.values[x.index]?.map (·.ty) = some (.int w))
    (hy : s.values[y.index]?.map (·.ty) = some (.int w)) (hresult : d.resultTy? = some (.int w)) :
    s.eligibility o = .ok op := by
  have hty : ∀ v : ValueId, s.values[v.index]?.map (·.ty) = some (.int w) →
      (liftM (s.valueTy v) : Attempt Ineligibility Ty) = .ok (.int w) := fun v hv =>
    lift_eq_ok.2 (valueTy_eq_ok_iff.2 hv)
  simp [eligibility, op_lift hd, bind, Except.bind, hop, hsupported, hoperands, hty x hx, hty y hy,
    hresult, Ty.isInt]

theorem isEligible_eq_true_iff :
    s.isEligible o = .ok true ↔ ∃ op, s.eligibility o = .ok op := by
  unfold isEligible
  cases s.eligibility o with
  | ok op => simp [Attempt.answer, Except.map, Except.isOk, Except.toBool]
  | error stop => cases stop <;> simp [Attempt.answer, Except.map, Except.isOk, Except.toBool]

/-- The operation applies an operator for which identities are known to two operands, of which one
at least is no value. -/
def Dangles (s : Store) (o : OpId) : Prop :=
  ∃ d op x y, s.ops[o.index]? = some d ∧ d.opcode = .binary op ∧ op.isSupported = true ∧
    d.operands = [x, y] ∧ ¬ (s.isAllocated x = true ∧ s.isAllocated y = true)

theorem eligibility_of_dangles (h : s.Dangles o) : s.eligibility o = .error (.fault .dangling) := by
  obtain ⟨d, op, x, y, hd, hop, hsupported, hoperands, hnot⟩ := h
  simp only [eligibility, op_lift hd, hop, hsupported, hoperands, bind, Except.bind, Bool.not_true,
    Bool.false_eq_true, if_false]
  by_cases hx : s.isAllocated x = true
  · obtain ⟨ty, hty⟩ := isAllocated_iff_valueTy.1 hx
    rw [hty, valueTy_eq_error fun hy => hnot ⟨hx, hy⟩]
    rfl
  · rw [valueTy_eq_error hx]
    rfl

/-- **Asking for the eligibility of an operation faults only if it dangles.** -/
theorem dangles_of_eligibility {d : Operation} (hd : s.ops[o.index]? = some d) {f : Fault}
    (h : s.eligibility o = .error (.fault f)) : s.Dangles o := by
  simp only [eligibility, op_lift hd, bind, Except.bind] at h
  split at h
  · next op hop =>
    split at h
    · cases h
    · next hsupported =>
      split at h
      · next x y hoperands =>
        refine ⟨d, op, x, y, hd, hop, by simpa using hsupported, hoperands, fun ⟨hx, hy⟩ => ?_⟩
        obtain ⟨xTy, hx⟩ := isAllocated_iff_valueTy.1 hx
        obtain ⟨yTy, hy⟩ := isAllocated_iff_valueTy.1 hy
        simp only [lift_eq_ok.2 hx, lift_eq_ok.2 hy] at h
        split at h
        · cases h
        · split at h <;> cases h
      · cases h
  · cases h

/-- **What asking for the eligibility of an operation comes to.** -/
theorem eligibility_cases {d : Operation} (hd : s.ops[o.index]? = some d) :
    (s.Dangles o ∧ s.eligibility o = .error (.fault .dangling)) ∨
      ¬ s.Dangles o ∧ ((∃ reason, s.eligibility o = .error (.error reason)) ∨
        ∃ op, s.eligibility o = .ok op) := by
  by_cases hdangles : s.Dangles o
  · exact .inl ⟨hdangles, eligibility_of_dangles hdangles⟩
  · refine .inr ⟨hdangles, ?_⟩
    cases he : s.eligibility o with
    | ok op => exact .inr ⟨op, rfl⟩
    | error stop =>
      cases stop with
      | error reason => exact .inl ⟨reason, rfl⟩
      | fault f => exact absurd (dangles_of_eligibility hd he) hdangles

/-- **Where the operands of an operation are values**, asking for its eligibility never faults. -/
theorem eligibility_ne_fault {d : Operation} (hd : s.ops[o.index]? = some d)
    (hoperands : ∀ v ∈ d.operands, s.isAllocated v = true) (f : Fault) :
    s.eligibility o ≠ .error (.fault f) := by
  intro hf
  obtain ⟨d', -, x, y, hd', -, -, hpair, hnot⟩ := dangles_of_eligibility hd hf
  obtain rfl : d = d' := Option.some.inj (hd.symm.trans hd')
  exact hnot ⟨hoperands x (by simp [hpair]), hoperands y (by simp [hpair])⟩

theorem exists_isEligible (hs : s.OperandsAllocated) {d : Operation}
    (hd : s.ops[o.index]? = some d) : ∃ b, s.isEligible o = .ok b := by
  unfold isEligible
  cases h : s.eligibility o with
  | ok op => exact ⟨_, rfl⟩
  | error stop =>
    cases stop with
    | error e => exact ⟨_, rfl⟩
    | fault f => exact absurd h (eligibility_ne_fault hd (fun v => hs.of_mem hd) f)

/-- An operation without operands is not eligible. -/
theorem isEligible_of_operands_nil {d : Operation} (hd : s.ops[o.index]? = some d)
    (hoperands : d.operands = []) : s.isEligible o = .ok false := by
  simp only [isEligible, eligibility, op_lift hd, bind, Except.bind, hoperands]
  split
  · split <;> rfl
  · rfl

/-! ## Expansions -/

theorem template_eq_ok {c : Catalog} {index : Nat} {t : Template}
    (h : (c.templates op)[index]? = some t) : c.template op index = .ok t := by
  have hne : (c.templates op).isEmpty = false := by
    cases hlist : c.templates op with
    | nil => rw [hlist] at h; cases h
    | cons _ _ => rfl
  have hshape : t.shapeError? = none := c.wellShaped op t (List.mem_of_getElem? h)
  simp only [Catalog.template, hne, Bool.false_eq_true, if_false, h, hshape]

/-- What is left of an expansion when its operation is eligible and its template is found. -/
theorem expand_eq_place {c : Catalog} (he : s.eligibility o = .ok op) {index : Nat} {t : Template}
    (ht : (c.templates op)[index]? = some t) {d : Operation} {x y : ValueId} {w : Width}
    (hd : s.ops[o.index]? = some d) (hoperands : d.operands = [x, y])
    (hx : s.values[x.index]?.map (·.ty) = some (.int w)) :
    expand c o index s = (do
      let point ← Edit.read (placeBefore · o)
      let (result, emitted) ←
        (Store.build point (t.emit x y (.int w))).mapError MutationError.build
      return ⟨o, op, index, t, result, emitted⟩ : Edit Store MutationError Expansion) s := by
  have hoperator : (Edit.read (operatorOf · o) : Edit Store MutationError _) s = .done op s :=
    Edit.read_done (by rw [operatorOf, he]; rfl)
  have htemplate : (Edit.read fun _ => c.template op index : Edit Store MutationError _) s =
      .done t s := Edit.read_done (template_eq_ok ht)
  have hpair : (Edit.read (operandPair · o) : Edit Store MutationError _) s =
      .done (x, y, .int w) s := by
    have hxty : (liftM (s.valueTy x) : Attempt MutationError Ty) = .ok (.int w) :=
      lift_eq_ok.2 (valueTy_eq_ok_iff.2 hx)
    refine Edit.read_done ?_
    simp only [operandPair, op_lift hd, bind, Except.bind, hoperands, hxty, pure, Except.pure]
  refine (Edit.bind_done hoperator).trans ?_
  refine (Edit.bind_done htemplate).trans ?_
  refine (Edit.bind_done hpair).trans ?_
  rfl

theorem placeBefore_eq_ok {d : Operation} {b : BlockId} (hd : s.ops[o.index]? = some d)
    (hparent : d.parent? = some b) : placeBefore s o = .ok (.before b o) := by
  rw [placeBefore, pointBefore_eq_ok ((parent?_eq hd).trans hparent)]
  rfl

/-- An eligible operation is expanded where its template is emitted. -/
theorem expand_of_emit {c : Catalog} (he : s.eligibility o = .ok op) {index : Nat} {t : Template}
    (ht : (c.templates op)[index]? = some t) {d : Operation} {x y : ValueId} {w : Width} {b : BlockId}
    (hd : s.ops[o.index]? = some d) (hoperands : d.operands = [x, y])
    (hx : s.values[x.index]?.map (·.ty) = some (.int w)) (hparent : d.parent? = some b) {v : ValueId}
    {builder : Builder}
    (hemit : t.emit x y (.int w) (Builder.start s (.before b o)) = .done v builder) :
    expand c o index s = .done ⟨o, op, index, t, v, builder.emitted⟩ builder.store := by
  have hbuild : (Store.build (.before b o) (t.emit x y (.int w))) s =
      .done (v, builder.emitted) builder.store := by
    rw [Store.build, hemit]
  have hplace : (Edit.read (placeBefore · o) : Edit Store MutationError _) s =
      .done (.before b o) s := Edit.read_done (placeBefore_eq_ok hd hparent)
  rw [expand_eq_place he ht hd hoperands hx]
  refine (Edit.bind_done hplace).trans ?_
  exact Edit.bind_done (Edit.mapError_done hbuild _)

/-- What is emitted for an eligible operation of a valid program. -/
theorem Site.emit_operands {c : Catalog} {before after : List OpId} (h : s.Site p o before after)
    {index : Nat} {t : Template} (ht : (c.templates op)[index]? = some t) {d : Operation}
    {x y : ValueId} {w : Width} (hd : s.ops[o.index]? = some d) (hoperands : d.operands = [x, y])
    (hx : s.values[x.index]?.map (·.ty) = some (.int w))
    (hy : s.values[y.index]?.map (·.ty) = some (.int w)) :
    ∃ v s' fresh known, t.emit x y (.int w) (Builder.start s (.before p.entry o)) =
        .done v ⟨s', .before p.entry o, fresh⟩ ∧
      s.Emission p o before after x y w s' fresh known ∧ (v, t.onWords) ∈ known ∧
      s.values.size ≤ v.index ∧ fresh.length = t.instructionCount := by
  obtain ⟨-, ⟨d', hd', hfits⟩, -⟩ := flow_append.1 h.valid.flow
  rw [hd] at hd'
  cases hd'
  rw [List.nil_append] at hfits
  exact h.emit_eq_done (c.wellShaped op t (List.mem_of_getElem? ht))
    (hfits.operands x (by simp [hoperands])) (hfits.operands y (by simp [hoperands])) hx hy

/-- An expansion of an eligible operation of a valid program. -/
theorem expand_eq_done {c : Catalog} {before after : List OpId}
    (h : s.Site p o before after) (he : s.eligibility o = .ok op) {index : Nat} {t : Template}
    (ht : (c.templates op)[index]? = some t) {d : Operation} {x y : ValueId} {w : Width}
    (hd : s.ops[o.index]? = some d) (hoperands : d.operands = [x, y])
    (hx : s.values[x.index]?.map (·.ty) = some (.int w))
    (hy : s.values[y.index]?.map (·.ty) = some (.int w)) :
    ∃ v s' fresh known, expand c o index s = .done ⟨o, op, index, t, v, fresh⟩ s' ∧
      s.Emission p o before after x y w s' fresh known ∧ (v, t.onWords) ∈ known ∧
      s.values.size ≤ v.index ∧ fresh.length = t.instructionCount := by
  obtain ⟨v, s', fresh, known, hemit, hrest⟩ := h.emit_operands ht hd hoperands hx hy
  have hparent := h.parent_anchor hd
  exact ⟨v, s', fresh, known, expand_of_emit he ht hd hoperands hx hparent hemit, hrest⟩

/-! ## Replacements -/

/-- An eligible operation of a valid program, replaced by a template. -/
structure Replacement (s : Store) (p : Program) (o : OpId) (op : BinaryOp) (t : Template) where
  entry : Operation
  before : List OpId
  after : List OpId
  x : ValueId
  y : ValueId
  width : Width
  /-- The result of the operation, and the value that takes its place. -/
  old : ValueId
  new : ValueId
  fresh : List OpId
  known : List Known
  /-- The store with the template emitted, and the one with the operation rebound as well. -/
  expanded : Store
  result : Store
  site : s.Site p o before after
  entry_eq : s.ops[o.index]? = some entry
  opcode : entry.opcode = .binary op
  supported : op.isSupported = true
  operands : entry.operands = [x, y]
  resultTy : entry.resultTy? = some (.int width)
  result_eq : entry.result? = some old
  wellShaped : t.WellShaped
  emit : t.emit x y (.int width) (Builder.start s (.before p.entry o)) =
    .done new ⟨expanded, .before p.entry o, fresh⟩
  emission : s.Emission p o before after x y width expanded fresh known
  computes : (new, t.onWords) ∈ known
  isNew : s.values.size ≤ new.index
  count : fresh.length = t.instructionCount
  rebound : expanded.Rebound p.entry o old new result

namespace Replacement

variable {t : Template} (r : Replacement s p o op t)

theorem result?_old : s.result? o = some r.old :=
  (result?_eq r.entry_eq).trans r.result_eq

theorem value_old : s.values[r.old.index]? = some ⟨.result o, .int r.width⟩ := by
  obtain ⟨ty, hty, hvalue⟩ := r.site.consistent.owned.result_origin o r.old r.result?_old
  rw [resultTy?_eq r.entry_eq, r.resultTy] at hty
  rw [hvalue, ← Option.some.inj hty]

theorem operandTys : s.values[r.x.index]?.map (·.ty) = some (.int r.width) ∧
    s.values[r.y.index]?.map (·.ty) = some (.int r.width) := by
  obtain ⟨d, hd, hfits⟩ := r.site.valid.entry (show o ∈ r.before ++ o :: r.after by simp)
  obtain rfl : r.entry = d := Option.some.inj (r.entry_eq.symm.trans hd)
  have htyped := typeDefect?_eq_none_iff_wellTyped.1 hfits.typed
  rw [r.opcode, r.operands, r.resultTy] at htyped
  cases htyped with
  | binary hx hy _ => exact ⟨hx, hy⟩

/-- **The code of the template has been emitted**, and its last result takes the place of the one of
the operation. -/
theorem coded : s.Coded p.entry r.x r.y r.width (t.code r.width) r.expanded ∧
    0 < (t.code r.width).length ∧ r.new = ⟨s.values.size + ((t.code r.width).length - 1)⟩ :=
  Template.coded_of_emit r.operandTys.1 r.operandTys.2 r.site.consistent
    (t.wellShaped_iff.1 r.wellShaped).1 r.emit

/-- The operation does not read its own result. -/
theorem old_notMem_operands : r.old ∉ r.entry.operands := by
  intro hmem
  obtain ⟨-, ⟨d, hd, hfits⟩, -⟩ := flow_append.1 r.site.valid.flow
  obtain rfl : r.entry = d := Option.some.inj (r.entry_eq.symm.trans hd)
  rw [List.nil_append] at hfits
  exact not_defines_of_notMem r.site.consistent.owned r.result?_old r.site.notMem
    (hfits.operands _ hmem)

/-- The template does not read the result of the operation. -/
theorem length_uses_old : (r.expanded.uses r.old).length = s.readCount r.old := by
  have hnot := r.old_notMem_operands
  rw [r.operands, List.mem_cons, List.mem_singleton, not_or] at hnot
  have hlt := (Array.getElem?_eq_some_iff.1 r.value_old).1
  rw [r.coded.1.uses _ hlt hnot.1 hnot.2, r.site.consistent.chains.length_uses]

/-- The operations of the program afterwards. -/
def listing : List OpId :=
  r.before ++ r.fresh ++ r.after.filter (· != o)

theorem valid_and_allocated : r.result.Valid p r.listing ∧ r.result.OperandsAllocated := by
  have hgrown := r.emission.grown
  have hold : r.expanded.result? o = some r.old := by
    rw [result?_eq (hgrown.ops_of_some r.entry_eq), r.result_eq]
  obtain ⟨hdefines, hty⟩ := r.emission.usable _ r.computes
  refine r.emission.site.rebound hold r.rebound hdefines ?_
  rw [hty, hgrown.values_of_some r.value_old]
  rfl

/-- **The program is valid afterwards.** -/
theorem valid : r.result.Valid p r.listing := r.valid_and_allocated.1

theorem allocated : r.result.OperandsAllocated := r.valid_and_allocated.2

theorem consistent : r.result.Consistent := r.rebound.consistent

/-- The operation is left without operands. -/
theorem operands_nil : ∃ d, r.result.ops[o.index]? = some d ∧ d.operands = [] := by
  refine ⟨{ r.entry with operands := [], parent? := none }, ?_, rfl⟩
  rw [r.rebound.ops, if_pos rfl, r.emission.grown.ops_of_some r.entry_eq, Option.map_some]

/-- Any other operation of the store stays, with `new` for `old` in its operands. -/
theorem ops_of_ne {o' : OpId} (hne : o' ≠ o) {d : Operation} (hd : s.ops[o'.index]? = some d) :
    r.result.ops[o'.index]? = some (d.rename r.old r.new) := by
  rw [r.rebound.ops_of_ne hne, r.emission.grown.ops_of_some hd, Option.map_some]

theorem size_ops_le : s.ops.size ≤ r.result.ops.size := by
  by_contra hlt
  have hsize := r.emission.grown.size_ops
  have hnone : r.result.ops[r.result.ops.size]? = none := Array.getElem?_eq_none (Nat.le_refl _)
  have hsome : r.expanded.ops[r.result.ops.size]? ≠ none := by
    rw [ne_eq, Array.getElem?_eq_none_iff]
    omega
  rw [r.rebound.ops] at hnone
  split at hnone <;> exact hsome (Option.map_eq_none_iff.1 hnone)

theorem size_values : r.result.values.size = s.values.size + r.fresh.length := by
  rw [r.rebound.owners.values, r.emission.grown.size_values]

include r in
theorem lt_anchor : o.index < s.ops.size :=
  (Array.getElem?_eq_some_iff.1 r.entry_eq).1

/-- The other operations of the program are listed afterwards. -/
theorem mem_listing {o' : OpId} (hne : o' ≠ o) (h : o' ∈ r.before ++ o :: r.after) :
    o' ∈ r.listing := by
  rw [List.mem_append, List.mem_cons] at h
  rw [listing, List.append_assoc, List.mem_append, List.mem_append, List.mem_filter, bne_iff_ne]
  grind

/-- The new operations are as many as those of the code. -/
theorem length_fresh : r.fresh.length = (t.code r.width).length := by
  have := r.coded.1.size_values
  have := r.emission.grown.size_values
  omega

theorem getElem?_fresh {k : Nat} (hk : k < r.fresh.length) : r.fresh[k]? = some ⟨s.ops.size + k⟩ := by
  have hget := List.getElem?_eq_getElem hk
  rw [hget, (r.emission.grown.numbers k _ hget).1]

/-- The entries of the new operations are those of the code. -/
theorem ops_fresh {k : Nat} {i : Template.Instruction} (hi : (t.code r.width)[k]? = some i) :
    r.result.ops[s.ops.size + k]? =
      some ((i.operation s p.entry r.x r.y r.width k).rename r.old r.new) := by
  have hne : s.ops.size + k ≠ o.index := by
    have := r.lt_anchor
    omega
  rw [r.rebound.ops, if_neg hne, r.coded.1.entries k i hi, Option.map_some]

end Replacement

/-- An operation with a result type has a result, which is a value. -/
theorem Owned.exists_result (hs : s.Owned) {d : Operation} {ty : Ty} (hd : s.ops[o.index]? = some d)
    (hty : d.resultTy? = some ty) : ∃ old, d.result? = some old ∧ old.index < s.values.size := by
  have hsome := hs.result_isSome o
  rw [result?_eq hd, resultTy?_eq hd, hty] at hsome
  obtain ⟨old, hold⟩ := Option.isSome_iff_exists.1 hsome
  obtain ⟨ty', -, hvalue⟩ := hs.result_origin o old ((result?_eq hd).trans hold)
  exact ⟨old, hold, (Array.getElem?_eq_some_iff.1 hvalue).1⟩

/-- An eligible operation of a valid program can be expanded and rebound. -/
theorem exists_replacement {c : Catalog} {ops : List OpId} (hs : s.Consistent)
    (ha : s.OperandsAllocated) (hv : s.Valid p ops) (ho : o ∈ ops)
    (he : s.eligibility o = .ok op) {index : Nat} {t : Template}
    (ht : (c.templates op)[index]? = some t) :
    ∃ r : Replacement s p o op t,
      r.before ++ o :: r.after = ops ∧
      expand c o index s = .done ⟨o, op, index, t, r.new, r.fresh⟩ r.expanded ∧
      Store.rebind o r.new r.expanded = .done (s.readCount r.old) r.result := by
  obtain ⟨d, x, y, w, hd, hop, hsupported, hoperands, hx, hy, hty⟩ := eligibility_ok he
  obtain ⟨before, after, rfl, hsite⟩ := hv.exists_site hs ha ho
  obtain ⟨new, s₁, fresh, known, hemit, hemission, hknown, hnew, hcount⟩ :=
    hsite.emit_operands ht hd hoperands hx hy
  have hparent := hsite.parent_anchor hd
  have hexpand := expand_of_emit he ht hd hoperands hx hparent hemit
  obtain ⟨old, hold, hlt⟩ := hs.owned.exists_result hd hty
  have hd₁ := hemission.grown.ops_of_some hd
  obtain ⟨target, htarget, -⟩ := ops_eq_ok_iff.1 hemission.site.valid.listed
  have hne : old ≠ new := by
    rintro rfl
    omega
  obtain ⟨s₂, hrebind, hrebound⟩ := rebind_eq_done hemission.site.consistent hd₁ hold hparent
    htarget hne
  let r : Replacement s p o op t := ⟨d, before, after, x, y, w, old, new, fresh, known, s₁, s₂, hsite,
    hd, hop, hsupported, hoperands, hty, hold, c.wellShaped op t (List.mem_of_getElem? ht), hemit,
    hemission, hknown, hnew, hcount, hrebound⟩
  exact ⟨r, rfl, hexpand, hrebind.trans (by rw [r.length_uses_old])⟩

end Store

/-! ## Mutating an operation -/

/-- The record tells how an operation of the store `s` is replaced by a template of the catalog:
what it is printed as, its operator, the template, and how many operands read its result. -/
structure MutationRecord.AccountsFor (record : MutationRecord) (c : Catalog) (s : Store) (o : OpId) :
    Prop where
  instruction : s.printOp o = .ok record.instruction
  operator : s.eligibility o = .ok record.operator
  template : ∃ t, (c.templates record.operator)[record.templateIndex]? = some t ∧
    record.formula = t.formula ∧ record.emitted = t.instructionCount
  reboundUses : ∃ old, s.result? o = some old ∧ record.reboundUses = s.readCount old

namespace Bench

open Store

variable {γ : Type}

theorem onStore_done {ε α : Type} {m : Edit Store ε α} {s s' : Store} {a : α}
    (h : m s = .done a s') (source : γ) :
    onStore m (⟨s, source⟩ : Bench γ) = .done a ⟨s', source⟩ := by
  simp only [onStore, h]

theorem onStore_eq_done {ε α : Type} {m : Edit Store ε α} {s : Store} {source : γ} {b' : Bench γ}
    {a : α} : onStore m (⟨s, source⟩ : Bench γ) = .done a b' ↔
      ∃ s', m s = .done a s' ∧ b' = ⟨s', source⟩ := by
  simp only [onStore]
  cases m s <;> simp [eq_comm]

/-- An edit of the store in two steps is done on the bench in two steps. -/
theorem onStore_bind {ε α β : Type} (m : Edit Store ε α) (next : α → Edit Store ε β) :
    (onStore (m >>= next) : Edit (Bench γ) ε β) = onStore m >>= fun a => onStore (next a) := by
  funext ⟨s, source⟩
  show onStore (Edit.bind m next) _ = Edit.bind (onStore m) _ _
  simp only [onStore, Edit.bind]
  cases m s <;> rfl

variable {c : Catalog} {p : Program} {o : OpId} {op : BinaryOp} {s : Store} {d : Operation}

/-- The edit of the store in a mutation that has drawn the index of its template, for an operation
that was printed as `instruction`. -/
def mutateAt (c : Catalog) (instruction : String) (o : OpId) (index : Nat) :
    Edit Store MutationError MutationRecord := do
  let e ← Store.expand c o index
  let reboundUses ← Store.rebind o e.result
  return ⟨instruction, e.operator, e.index, e.template.formula, e.emitted.length, reboundUses⟩

theorem exists_printOp (hd : s.ops[o.index]? = some d) (source : γ) : ∃ instruction,
    s.printOp o = .ok instruction ∧
      (Edit.read fun b => b.store.printOp o : Edit (Bench γ) MutationError String) ⟨s, source⟩ =
        .done instruction ⟨s, source⟩ := by
  obtain ⟨instruction, hinstruction⟩ : ∃ instruction, s.printOp o = .ok instruction :=
    ⟨_, bind_eq_ok.2 ⟨d, op_eq_ok_iff.2 hd, rfl⟩⟩
  exact ⟨instruction, hinstruction, Edit.read_done (lift_eq_ok.2 hinstruction)⟩

theorem read_operatorOf (he : s.eligibility o = .ok op) (source : γ) :
    (Edit.read fun b => b.store.operatorOf o : Edit (Bench γ) MutationError BinaryOp) ⟨s, source⟩ =
      .done op ⟨s, source⟩ :=
  Edit.read_done (by show operatorOf s o = _; rw [operatorOf, he]; rfl)

variable [RandomSource γ]

/-- An operation whose operator has no templates is not mutated. -/
theorem mutate_of_templates_nil (hd : s.ops[o.index]? = some d) (he : s.eligibility o = .ok op)
    (hempty : c.templates op = []) (source : γ) :
    mutate c o ⟨s, source⟩ = .failed (.missingTemplates op) ⟨s, source⟩ := by
  obtain ⟨instruction, -, hprint⟩ := exists_printOp hd source
  have hexpand : expand c o (⟨s, source⟩ : Bench γ) =
      .failed (.missingTemplates op) ⟨s, source⟩ := by
    refine (Edit.bind_done (read_operatorOf he source)).trans ?_
    rw [if_pos (by rw [hempty, List.length_nil])]
    rfl
  exact (Edit.bind_done hprint).trans (Edit.bind_failed hexpand)

/-- **Mutating an operation whose operator has templates** draws the index of one, and all that
follows is an edit of the store. -/
theorem exists_mutate_eq (hd : s.ops[o.index]? = some d) (he : s.eligibility o = .ok op)
    (hpos : 0 < (c.templates op).length) (source : γ) :
    ∃ instruction index source', s.printOp o = .ok instruction ∧ index < (c.templates op).length ∧
      mutate c o (⟨s, source⟩ : Bench γ) =
        onStore (mutateAt c instruction o index) ⟨s, source'⟩ := by
  obtain ⟨instruction, hinstruction, hprint⟩ := exists_printOp hd source
  obtain ⟨index, source', hdraw, hlt⟩ : ∃ index source',
      (drawing (RandomSource.below (c.templates op).length) : Edit (Bench γ) MutationError Nat)
        ⟨s, source⟩ = .done index ⟨s, source'⟩ ∧ index < (c.templates op).length :=
    ⟨_, _, rfl, RandomSource.below_lt hpos source⟩
  have hexpand : expand c o (⟨s, source⟩ : Bench γ) =
      onStore (Store.expand c o index) ⟨s, source'⟩ := by
    refine (Edit.bind_done (read_operatorOf he source)).trans ?_
    rw [if_neg (Nat.pos_iff_ne_zero.1 hpos)]
    exact Edit.bind_done hdraw
  refine ⟨instruction, index, source', hinstruction, hlt, (Edit.bind_done hprint).trans ?_⟩
  rw [mutateAt, onStore_bind, Edit.bind_congr hexpand]
  simp only [onStore_bind]
  rfl

/-- **Mutating an eligible operation of a valid program** is a replacement by a template of the
catalog, of which the record tells, unless the catalog has none for its operator; then nothing
changes. -/
theorem mutate_outcome {b : Bench γ} {ops : List OpId} (hs : b.store.Consistent)
    (ha : b.store.OperandsAllocated) (hv : b.store.Valid p ops) (ho : o ∈ ops)
    (he : b.store.eligibility o = .ok op) :
    (c.templates op = [] ∧ mutate c o b = .failed (.missingTemplates op) b) ∨
      ∃ t ∈ c.templates op, ∃ (r : Replacement b.store p o op t) (record : MutationRecord)
        (source : γ), r.before ++ o :: r.after = ops ∧
          mutate c o b = .done record ⟨r.result, source⟩ ∧ record.AccountsFor c b.store o ∧
          r.fresh.length = record.emitted := by
  obtain ⟨s, source⟩ := b
  obtain ⟨d, -, -, -, hd, -⟩ := eligibility_ok he
  by_cases hempty : c.templates op = []
  · exact .inl ⟨hempty, mutate_of_templates_nil hd he hempty source⟩
  obtain ⟨instruction, index, source', hprint, hlt, hmutate⟩ :=
    exists_mutate_eq hd he (List.length_pos_iff.2 hempty) source
  have ht := List.getElem?_eq_getElem hlt
  obtain ⟨r, hsplit, hexpand, hrebind⟩ := exists_replacement hs ha hv ho he ht
  have hdone : mutateAt c instruction o index s = .done
      ⟨instruction, op, index, (c.templates op)[index].formula, r.fresh.length, s.readCount r.old⟩
      r.result :=
    (Edit.bind_done hexpand).trans (Edit.bind_done hrebind)
  exact .inr ⟨_, List.getElem_mem hlt, r, _, source', hsplit, hmutate.trans (onStore_done hdone _),
    ⟨hprint, he, ⟨_, ht, rfl, r.count⟩, r.old, r.result?_old, rfl⟩, rfl⟩

end Bench

end Mba
