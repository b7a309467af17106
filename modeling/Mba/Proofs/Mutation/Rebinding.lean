import Mba.Mutation.Rebinding
import Mba.Proofs.Mutation.Site

/-!
# Rebinding an operation

Results:
* `exists_takenOut`: a placed operation whose result nothing reads can be taken out of its block.
* `rebind_of_steps`: the steps of a rebinding that succeeds.
* `rebind_eq_done`: where the store is consistent, rebinding a placed operation to another value
  than its own result succeeds; it renames the result in all operands and takes the operation away.
* `Site.rebound`: a site stays a valid program when its anchor is rebound to a value of the same
  type that is known before it.
-/

namespace Mba

namespace Store

variable {s s' : Store} {p : Program}

/-- What rebinding an operation placed in the block `b` to the value `new` does. -/
structure Rebound (s : Store) (b : BlockId) (o : OpId) (old new : ValueId) (s' : Store) : Prop where
  ops : ∀ i, s'.ops[i]? =
    if i = o.index then s.ops[i]?.map fun d => { d with operands := [], parent? := none }
    else s.ops[i]?.map (Operation.rename old new)
  owners : SameOwners s s'
  blocks : s'.blocks = s.blocks.modify b.index fun d => { d with ops := d.ops.filter (· != o) }
  /-- The chains of values that the operation does not read, other than the two, stay. -/
  uses : ∀ v, v ≠ old → v ≠ new → (∀ d, s.ops[o.index]? = some d → v ∉ d.operands) →
    s'.uses v = s.uses v
  consistent : s'.Consistent

/-! ## Taking an operation out -/

/-- What taking the operation `o` out of the block `b` does. -/
structure TakenOut (s : Store) (b : BlockId) (o : OpId) (s' : Store) : Prop where
  ops : ∀ i, s'.ops[i]? =
    if i = o.index then s.ops[i]?.map fun d => { d with operands := [], parent? := none }
    else s.ops[i]?
  owners : SameOwners s s'
  blocks : s'.blocks = s.blocks.modify b.index fun d => { d with ops := d.ops.filter (· != o) }
  uses : ∀ v, (∀ d, s.ops[o.index]? = some d → v ∉ d.operands) → s'.uses v = s.uses v
  consistent : s'.Consistent

variable {o : OpId} {d : Operation} {b : BlockId} {target : Block}

/-- An operation has been taken out when it is unlinked and its operands are dropped. -/
theorem takenOut_dropOperands (hs : s.Consistent) (hd : s.ops[o.index]? = some d)
    (hblock : s.blocks[b.index]? = some target) :
    s.TakenOut b o (((s.setBlockOps b (target.ops.filter (· != o))).setParent o none).dropOperands o
      d.operands) := by
  set s₁ := (s.setBlockOps b (target.ops.filter (· != o))).setParent o none
  constructor
  case ops =>
    intro i
    rw [ops_dropOperands, Array.getElem?_modify, getElem?_ops_setParent]
    show (if o.index = i then (if o.index = i then s.ops[i]?.map _ else s.ops[i]?).map _
      else if o.index = i then s.ops[i]?.map _ else s.ops[i]?) = _
    by_cases hi : o.index = i
    · rw [if_pos hi, if_pos hi, if_pos hi.symm, Option.map_map]
      rfl
    · rw [if_neg hi, if_neg hi, if_neg (Ne.symm hi)]
  case owners =>
    exact (sameOwners_setBlockOps s _ _).trans
      ((sameOwners_setParent _ _ _).trans (sameOwners_dropOperands s₁ _ _))
  case blocks =>
    rw [blocks_dropOperands]
    show (s.blocks.modify b.index fun d => { d with ops := target.ops.filter (· != o) }) = _
    refine Array.ext_getElem? fun i => ?_
    rw [Array.getElem?_modify, Array.getElem?_modify]
    split
    · next hi =>
      subst hi
      rw [hblock]
      rfl
    · rfl
  case uses =>
    intro v hv
    rw [uses_dropOperands, slotsReading_eq_nil (hv d hd)]
    simp only [List.not_mem_nil, not_false_eq_true, decide_true, List.filter_true]
    rfl
  case consistent =>
    have hd₁ : s₁.ops[o.index]? = some { d with parent? := none } := by
      rw [getElem?_ops_setParent, if_pos rfl]
      exact congrArg (Option.map _) hd
    have hconsistent : s₁.Consistent := (hs.setBlockOps _ _).setParent _ _
    exact ⟨hconsistent.chains.dropOperands (d := { d with parent? := none }) hd₁,
      hconsistent.owned.congr (sameOwners_dropOperands _ _ _)⟩

/-- **A placed operation whose result nothing reads can be taken out.** -/
theorem exists_takenOut (hs : s.Consistent) (hd : s.ops[o.index]? = some d)
    (hparent : d.parent? = some b) (hblock : s.blocks[b.index]? = some target)
    (hunused : ∀ v ∈ d.result?, s.uses v = []) :
    ∃ s₁ s', s.unlinkOp b o = .ok s₁ ∧ s₁.removeOp o = .ok s' ∧ s.TakenOut b o s' := by
  let s₁ := (s.setBlockOps b (target.ops.filter (· != o))).setParent o none
  refine ⟨s₁, _, ?_, ?_, takenOut_dropOperands hs hd hblock⟩
  · refine bind_eq_ok.2 ⟨target, block_eq_ok_iff.2 hblock, ?_⟩
    refine bind_eq_ok.2 ⟨d, op_eq_ok_iff.2 hd, ?_⟩
    exact congrArg Except.ok (if_pos hparent)
  · have hd₁ : s₁.ops[o.index]? = some { d with parent? := none } := by
      rw [getElem?_ops_setParent, if_pos rfl]
      exact congrArg (Option.map _) hd
    refine bind_eq_ok.2 ⟨_, op_eq_ok_iff.2 hd₁, ?_⟩
    have hfilter : (d.result?.filter fun result => s₁.uses result ≠ []) = none := by
      refine Option.filter_eq_none_iff.2 fun v hv => ?_
      have hunused₁ : s₁.uses v = [] := hunused v hv
      simp [hunused₁]
    simp only [Option.isSome_none, Bool.false_eq_true, if_false, hfilter]
    rfl

/-! ## Rebinding -/

theorem rebindable_eq_ok {o : OpId} {d : Operation} {b : BlockId} {old : ValueId}
    (hd : s.ops[o.index]? = some d) (hresult : d.result? = some old) (hparent : d.parent? = some b) :
    rebindable s o = .ok (old, b) := by
  rw [rebindable, result?, hd, Option.bind_some, hresult]
  dsimp only
  rw [op_lift hd]
  simp only [bind, Except.bind, hparent]
  rfl

/-- Renaming a value and taking its operation out. -/
theorem TakenOut.rebound {b : BlockId} {o : OpId} {old new : ValueId}
    (hne : old ≠ new) (h : (s.renameUses old new).TakenOut b o s') : s.Rebound b o old new s' := by
  have hops : ∀ i : Nat, (s.renameUses old new).ops[i]? =
      s.ops[i]?.map (Operation.rename old new) := fun _ => Array.getElem?_map
  constructor
  case ops =>
    intro i
    rw [h.ops, hops]
    split
    · rw [Option.map_map]
      rfl
    · rfl
  case owners => exact (sameOwners_renameUses s old new).trans h.owners
  case blocks => exact h.blocks
  case uses =>
    intro v hold hnew hv
    rw [h.uses, uses_renameUses s hne, if_neg hnew, if_neg hold]
    intro renamed hrenamed hmem
    rw [hops] at hrenamed
    obtain ⟨d, hd, rfl⟩ := Option.map_eq_some_iff.1 hrenamed
    obtain ⟨u, hu, hread⟩ := List.mem_map.1 hmem
    rw [ValueId.rename] at hread
    split at hread
    · exact hnew hread.symm
    · exact hv d hd (hread ▸ hu)
  case consistent => exact h.consistent

/-- The steps of a rebinding that succeeds. -/
theorem rebind_of_steps {s₁ s₂ s₃ : Store} {o : OpId} {d : Operation} {b : BlockId}
    {old new : ValueId} {n : Nat} (hd : s.ops[o.index]? = some d) (hresult : d.result? = some old)
    (hparent : d.parent? = some b) (hredirect : s.replaceAllUses old new = .ok (n, s₁))
    (hunused : s₁.uses old = []) (hunlink : s₁.unlinkOp b o = .ok s₂)
    (hremove : s₂.removeOp o = .ok s₃) : Store.rebind o new s = .done n s₃ := by
  have hread : (Edit.read (rebindable · o) : Edit Store MutationError _) s = .done (old, b) s :=
    Edit.read_done (rebindable_eq_ok hd hresult hparent)
  have hstep : (Edit.step (replaceAllUses · old new) : Edit Store MutationError _) s = .done n s₁ :=
    Edit.step_done hredirect
  have hcount : (Edit.read fun s => .ok (s.uses old).length : Edit Store MutationError Nat) s₁ =
      .done 0 s₁ := Edit.read_done (by rw [hunused, List.length_nil])
  have hchange : (Edit.change (unlinkOp · b o) : Edit Store MutationError _) s₁ = .done () s₂ :=
    Edit.change_done hunlink
  have hchange' : (Edit.change (removeOp · o) : Edit Store MutationError _) s₂ = .done () s₃ :=
    Edit.change_done hremove
  refine (Edit.bind_done hread).trans ?_
  refine (Edit.bind_done hstep).trans ?_
  refine (Edit.bind_done hcount).trans ?_
  rw [if_neg (Nat.lt_irrefl 0)]
  refine (Edit.bind_done hchange).trans ?_
  exact Edit.bind_done hchange'

/-- **Rebinding a placed operation to another value than its own result succeeds.** -/
theorem rebind_eq_done (hs : s.Consistent) {o : OpId} {d : Operation} {b : BlockId}
    {target : Block} {old new : ValueId} (hd : s.ops[o.index]? = some d)
    (hresult : d.result? = some old) (hparent : d.parent? = some b)
    (hblock : s.blocks[b.index]? = some target) (hne : old ≠ new) :
    ∃ s', Store.rebind o new s = .done (s.uses old).length s' ∧ s.Rebound b o old new s' := by
  let s₁ := s.renameUses old new
  have hd₁ : s₁.ops[o.index]? = some (d.rename old new) := by
    show (s.ops.map _)[o.index]? = _
    rw [Array.getElem?_map, hd, Option.map_some]
  have hunused : s₁.uses old = [] := by
    rw [uses_renameUses s hne, if_neg hne, if_pos rfl]
  have hs₁ : s₁.Consistent :=
    ⟨hs.chains.renameUses hne, hs.owned.congr (sameOwners_renameUses s _ _)⟩
  have hresult₁ : ∀ v ∈ (d.rename old new).result?, s₁.uses v = [] := by
    intro v hv
    obtain rfl : old = v := Option.some.inj (hresult.symm.trans hv)
    exact hunused
  obtain ⟨s₂, s₃, hunlink, hremove, htaken⟩ := exists_takenOut hs₁ hd₁ hparent hblock hresult₁
  exact ⟨s₃, rebind_of_steps hd hresult hparent (hs.chains.replaceAllUses hne) hunused hunlink
    hremove, htaken.rebound hne⟩

section Rebound

variable {b : BlockId} {o : OpId} {old new : ValueId} (h : s.Rebound b o old new s')
include h

theorem Rebound.slot? (use : Use) : s'.slot? use =
    if use.user = o then none else (s.slot? use).map (ValueId.rename old new) := by
  obtain ⟨⟨user⟩, slot⟩ := use
  obtain ⟨o⟩ := o
  rw [Store.slot?, Store.slot?, h.ops]
  by_cases hu : user = o
  · cases s.ops[user]? <;> simp [hu]
  · cases s.ops[user]? <;> simp [hu, Operation.rename]

/-- Other operations stay, with `new` for `old` in their operands. -/
theorem Rebound.ops_of_ne {o' : OpId} (hne : o' ≠ o) :
    s'.ops[o'.index]? = s.ops[o'.index]?.map (Operation.rename old new) := by
  have hindex : o'.index ≠ o.index := by
    intro heq
    cases o; cases o'
    exact hne (congrArg OpId.mk heq)
  rw [h.ops, if_neg hindex]

theorem Rebound.opcode?_of_ne {o' : OpId} (hne : o' ≠ o) : s'.opcode? o' = s.opcode? o' := by
  rw [opcode?, opcode?, h.ops_of_ne hne, Option.map_map]
  rfl

theorem Rebound.defines_iff {done : List OpId} {v : ValueId} :
    s'.Defines p done v ↔ s.Defines p done v := by
  simp only [Defines, Program.inputs, h.owners.args, h.owners.result?]

end Rebound

/-! ## Sites that are rebound -/

section Site

variable {anchor : OpId} {before after : List OpId} (h : s.Site p anchor before after)
include h

theorem Site.filter_before : before.filter (· != anchor) = before := by
  refine List.filter_eq_self.2 fun o ho => bne_iff_ne.2 ?_
  rintro rfl
  exact h.notMem ho

theorem Site.filter_listing : (before ++ anchor :: after).filter (· != anchor) =
    before ++ after.filter (· != anchor) := by
  rw [List.filter_append, h.filter_before, List.filter_cons_of_neg (by simp)]

theorem Site.mem_filter_listing {o : OpId} : o ∈ before ++ after.filter (· != anchor) ↔
    o ∈ before ++ anchor :: after ∧ o ≠ anchor := by
  rw [← h.filter_listing, List.mem_filter, bne_iff_ne]

variable {old new : ValueId} (hold : s.result? anchor = some old)
include hold

/-- A `ret` has no result. -/
theorem Site.anchor_ne_ret : s.opcode? anchor ≠ some .ret := by
  obtain ⟨d, hd, hfits⟩ := h.valid.entry (show anchor ∈ before ++ anchor :: after by simp)
  have hsome := h.consistent.owned.result_isSome anchor
  rw [hold, resultTy?_eq hd, ← (typeDefect?_eq_none_iff.1 hfits.typed).2.1] at hsome
  rw [opcode?, hd, Option.map_some]
  rintro heq
  rw [Option.some.inj heq] at hsome
  cases hsome

variable (hr : s.Rebound p.entry anchor old new s')
include hr

/-- What is known behind operations other than the anchor stays so, under its own name. -/
theorem Site.defines_rename {done : List OpId} (hdone : anchor ∉ done) {v : ValueId}
    (hv : s.Defines p done v) : s'.Defines p done (ValueId.rename old new v) := by
  have hne : v ≠ old := by
    rintro rfl
    exact not_defines_of_notMem h.consistent.owned hold hdone hv
  rw [ValueId.rename, if_neg hne]
  exact hr.defines_iff.2 hv

/-- The program without the anchor ends in the same `ret`. -/
theorem Site.ending_rebound : ∃ body last, before ++ after.filter (· != anchor) = body ++ [last] ∧
    s'.opcode? last = some .ret ∧ ∀ o ∈ body, s'.opcode? o ≠ some .ret := by
  obtain ⟨body, last, hbody, hlast, hne⟩ := h.valid.ending
  have hlast' : last ≠ anchor := by
    rintro rfl
    exact h.anchor_ne_ret hold hlast
  refine ⟨body.filter (· != anchor), last, ?_, by rw [hr.opcode?_of_ne hlast', hlast], ?_⟩
  · rw [← h.filter_listing, hbody, List.filter_append,
      List.filter_cons_of_pos (by simpa using hlast')]
    rfl
  · intro o ho
    obtain ⟨ho, hne'⟩ := List.mem_filter.1 ho
    rw [hr.opcode?_of_ne (bne_iff_ne.1 hne')]
    exact hne o ho

/-- The values of the program without the anchor are read by its own operations only. -/
theorem Site.closed_rebound {v : ValueId} {use : Use}
    (hv : s'.Defines p (before ++ after.filter (· != anchor)) v) (hread : s'.slot? use = some v) :
    use.user ∈ before ++ after.filter (· != anchor) := by
  rw [hr.slot?] at hread
  split at hread
  · cases hread
  · next huser =>
    obtain ⟨u, hu, hrenamed⟩ := Option.map_eq_some_iff.1 hread
    refine h.mem_filter_listing.2 ⟨h.valid.closed u use ?_ hu, huser⟩
    by_cases heq : u = old
    · exact .inr ⟨anchor, by simp, by rw [hold, heq]⟩
    · rw [ValueId.rename, if_neg heq] at hrenamed
      subst hrenamed
      exact (hr.defines_iff.1 hv).mono fun o ho => (h.mem_filter_listing.1 ho).1

variable (hnew : s.Defines p before new)
include hnew

/-- The operations of the program without the anchor flow: what read the result of the anchor reads
a value that is known before it. -/
theorem Site.flow_rebound
    (hty : s.values[new.index]?.map (·.ty) = s.values[old.index]?.map (·.ty)) :
    s'.Flow p [] (before ++ after.filter (· != anchor)) := by
  obtain ⟨hbefore, hanchor⟩ := flow_append.1 h.valid.flow
  have hrename : ∀ o v, (o != anchor) = true → s.result? o = some v →
      ValueId.rename old new v = v := by
    intro o v hne hv
    refine if_neg ?_
    rintro rfl
    exact bne_iff_ne.1 hne (h.consistent.owned.result_inj hv hold)
  have hvalues : ∀ v, s.isAllocated v = true →
      s'.values[(ValueId.rename old new v).index]?.map (·.ty) =
        s.values[v.index]?.map (·.ty) := by
    intro v _
    rw [hr.owners.values, ValueId.rename]
    split
    · next heq => rw [heq, hty]
    · rfl
  have hops : ∀ o, (o != anchor) = true → ∀ d, s.ops[o.index]? = some d → s'.ops[o.index]? =
      some { d with operands := d.operands.map (ValueId.rename old new) } := by
    intro o hne d hd
    rw [hr.ops_of_ne (bne_iff_ne.1 hne), hd]
    rfl
  have hfront : s'.Flow p [] (before.filter (· != anchor)) :=
    Flow.rename (ValueId.rename old new) _ h.consistent.owned hvalues (fun o _ => hops o)
      (fun o _ hkeep v hv => hrename o v hkeep hv)
      (fun o ho hdrop => absurd ((bne_eq_false_iff_eq.1 hdrop) ▸ ho) h.notMem)
      (fun v => h.defines_rename hold hr List.not_mem_nil) hbefore
  have hback : s'.Flow p before ((anchor :: after).filter (· != anchor)) := by
    refine Flow.rename (ValueId.rename old new) _ h.consistent.owned hvalues (fun o _ => hops o)
      (fun o _ hkeep v hv => hrename o v hkeep hv) ?_
      (fun v => h.defines_rename hold hr h.notMem) hanchor
    intro o _ hdrop v hv
    obtain rfl : o = anchor := by simpa using hdrop
    obtain rfl : old = v := Option.some.inj (hold.symm.trans hv)
    rw [ValueId.rename, if_pos rfl]
    exact hr.defines_iff.2 hnew
  rw [h.filter_before] at hfront
  rw [List.filter_cons_of_neg (by simp)] at hback
  exact flow_append.2 ⟨hfront, hback⟩

omit hold in
theorem Site.allocated_rebound : s'.OperandsAllocated := by
  intro use v hread
  rw [hr.slot?] at hread
  split at hread
  · cases hread
  · obtain ⟨u, hu, rfl⟩ := Option.map_eq_some_iff.1 hread
    rw [isAllocated, hr.owners.values, ValueId.rename]
    split
    · exact hnew.isAllocated h.consistent.owned
    · exact h.allocated use u hu

/-- **A site stays a valid program when its anchor is rebound** to a value of the same type that is
known before it. -/
theorem Site.rebound
    (hty : s.values[new.index]?.map (·.ty) = s.values[old.index]?.map (·.ty)) :
    s'.Valid p (before ++ after.filter (· != anchor)) ∧ s'.OperandsAllocated := by
  refine ⟨⟨?_, h.flow_rebound hold hr hnew hty, h.ending_rebound hold hr, fun v use hv hread =>
    h.closed_rebound hold hr hv hread⟩, h.allocated_rebound hr hnew⟩
  obtain ⟨target, htarget, htops⟩ := ops_eq_ok_iff.1 h.valid.listed
  refine ops_eq_ok_iff.2 ⟨{ target with ops := target.ops.filter (· != anchor) }, ?_, ?_⟩
  · rw [hr.blocks, Array.getElem?_modify, if_pos rfl, htarget]
    rfl
  · rw [htops, h.filter_listing]

end Site

end Store

end Mba
