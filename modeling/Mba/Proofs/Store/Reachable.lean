import Mba.Proofs.Edit
import Mba.Proofs.Store.Owners

/-!
# Reachable stores

A store is reachable when elementary changes, none of which faults, lead to it from the empty one.
Every reachable store is consistent: its chains are exact and its values are owned.

Results:
* `createOp_ok`, `pushOp_ok`, `insertOpBefore_ok`, `unlinkOp_ok`, `removeOp_ok`,
  `replaceAllUses_ok`: what each change that succeeds has found, and the store it leaves.
* `ChainsExact.replaceAllUses`: redirecting all uses of a value renames it in every operand.
* `Consistent.step`: every change keeps a store consistent.
* `Reachable.consistent`: reachable stores are consistent.
-/

namespace Mba.Store

/-- The chains are exact and the values are owned. -/
structure Consistent (s : Store) : Prop where
  chains : s.ChainsExact
  owned : s.Owned

theorem chainsExact_empty : empty.ChainsExact where
  nodup v := by simp [empty, uses]
  mem_uses v use := by simp [empty, uses, slot?]

theorem owned_empty : empty.Owned := by
  constructor <;> simp [empty, result?, resultTy?, args, argTys]

theorem consistent_empty : empty.Consistent := ⟨chainsExact_empty, owned_empty⟩

/-- Chains stay exact where neither they nor the slots change. -/
theorem ChainsExact.congr {s s' : Store} (hs : s.ChainsExact) (huses : ∀ v, s'.uses v = s.uses v)
    (hslot : ∀ use, s'.slot? use = s.slot? use) : s'.ChainsExact where
  nodup v := by
    rw [huses]
    exact hs.nodup v
  mem_uses v use := by
    rw [huses, hslot]
    exact hs.mem_uses v use

/-! ## Creating a block -/

theorem getElem?_values_createBlock (s : Store) (argTys : List Ty) (ops : List OpId) (i : Nat) :
    (s.createBlock argTys ops).2.values[i]? =
      if i < s.values.size then s.values[i]?
      else argTys[i - s.values.size]?.map fun ty =>
        ⟨.argument ⟨s.blocks.size⟩ (i - s.values.size), ty⟩ := by
  simp only [createBlock]
  rw [← Array.getElem?_toList, Array.toList_appendList, List.getElem?_append, Array.length_toList,
    Array.getElem?_toList]
  split
  · rfl
  · rw [List.getElem?_map, List.getElem?_zipIdx, Option.map_map, Nat.zero_add]
    rfl

theorem args_createBlock (s : Store) (argTys : List Ty) (ops : List OpId) (b : BlockId) :
    (s.createBlock argTys ops).2.args b =
      if b = ⟨s.blocks.size⟩ then (List.range argTys.length).map fun i => ⟨s.values.size + i⟩
      else s.args b := by
  obtain ⟨b⟩ := b
  rw [args_eq, args_eq, createBlock, Array.getElem?_push]
  by_cases h : b = s.blocks.size <;> simp [h]

theorem argTys_createBlock (s : Store) (argTys : List Ty) (ops : List OpId) (b : BlockId) :
    (s.createBlock argTys ops).2.argTys b =
      if b = ⟨s.blocks.size⟩ then argTys else s.argTys b := by
  obtain ⟨b⟩ := b
  rw [Store.argTys, Store.argTys, createBlock, Array.getElem?_push]
  by_cases h : b = s.blocks.size <;> simp [h]

theorem Consistent.createBlock {s : Store} (hs : s.Consistent) (argTys : List Ty)
    (ops : List OpId) : (s.createBlock argTys ops).2.Consistent := by
  obtain ⟨hchains, howned⟩ := hs
  have hvalue := getElem?_values_createBlock s argTys ops
  refine ⟨hchains.congr (fun _ => rfl) fun _ => rfl, ?_⟩
  constructor
  case result_isSome => exact howned.result_isSome
  case result_origin =>
    intro o v hv
    obtain ⟨ty, hty, hv⟩ := howned.result_origin o v hv
    refine ⟨ty, hty, ?_⟩
    rw [hvalue, if_pos (Array.getElem?_eq_some_iff.1 hv).1]
    exact hv
  case origin_result =>
    intro o v ty hv
    rw [hvalue] at hv
    split at hv
    · exact howned.origin_result o v ty hv
    · simp at hv
  case length_args =>
    intro b
    rw [args_createBlock, argTys_createBlock]
    split
    · rw [List.length_map, List.length_range]
    · exact howned.length_args b
  case arg_origin =>
    intro b i v hv
    rw [args_createBlock] at hv
    rw [argTys_createBlock, hvalue]
    split at hv
    · next h =>
      have hi : i < argTys.length := by
        have := (List.getElem?_eq_some_iff.1 hv).1
        rwa [List.length_map, List.length_range] at this
      rw [List.getElem?_map, List.getElem?_range hi] at hv
      obtain rfl := Option.some.inj hv
      rw [if_pos h, if_neg (Nat.not_lt.2 (Nat.le_add_right _ _)), Nat.add_sub_cancel_left,
        List.getElem?_eq_getElem hi, h]
      exact ⟨_, rfl, rfl⟩
    · next h =>
      obtain ⟨ty, hty, hv⟩ := howned.arg_origin b i v hv
      rw [if_neg h, if_pos (Array.getElem?_eq_some_iff.1 hv).1]
      exact ⟨ty, hty, hv⟩
  case origin_arg =>
    intro b i v ty hv
    rw [hvalue] at hv
    rw [args_createBlock]
    split at hv
    · have hold := howned.origin_arg b i v ty hv
      have hb : b ≠ ⟨s.blocks.size⟩ := by
        rintro rfl
        simp [args] at hold
      rw [if_neg hb]
      exact hold
    · next h =>
      obtain ⟨ty', hty', heq⟩ := Option.map_eq_some_iff.1 hv
      cases heq
      have hi := (List.getElem?_eq_some_iff.1 hty').1
      have hsum : s.values.size + (v.index - s.values.size) = v.index := by omega
      simp [hi, hsum]

/-! ## Creating an operation -/

/-- The operation of a draft that is created in a store. -/
def Draft.operation (draft : Draft) (s : Store) : Operation :=
  ⟨draft.opcode, draft.operands, draft.resultTy?, draft.resultTy?.map fun _ => ⟨s.values.size⟩,
    none⟩

/-- What creating an operation does. -/
structure Created (s : Store) (draft : Draft) (s' : Store) : Prop where
  unlinked : draft.parent? = none
  ops : s'.ops = s.ops.push (draft.operation s)
  values : s'.values = match draft.resultTy? with
    | some ty => s.values.push ⟨.result ⟨s.ops.size⟩, ty⟩
    | none => s.values
  blocks : s'.blocks = s.blocks
  uses : ∀ v, s'.uses v = s.uses v ++ slotsReading ⟨s.ops.size⟩ draft.operands v

theorem createOp_eq (s : Store) {draft : Draft} (h : draft.parent? = none) :
    ∃ s', s.createOp draft = .ok (⟨s.ops.size⟩, s') ∧ Created s draft s' := by
  let o : OpId := ⟨s.ops.size⟩
  let entered := draft.operands.zipIdx.foldl (fun s slot => s.addUse slot.1 ⟨o, slot.2⟩) s
  have hentered : SameEntries s entered :=
    sameEntries_foldl (fun s _ => sameEntries_setUses s _ _) _ _
  refine ⟨_, by simp only [createOp, h, Option.isSome_none, Bool.false_eq_true, if_false]; rfl, ?_⟩
  constructor
  case unlinked => exact h
  case ops => exact congrArg (·.push (draft.operation s)) hentered.ops
  case values =>
    cases draft.resultTy? with
    | none => exact hentered.values
    | some ty => exact congrArg (·.push (⟨.result o, ty⟩ : Value)) hentered.values
  case blocks => exact hentered.blocks
  case uses => exact uses_addUses o _ s

theorem createOp_ok {s s' : Store} {draft : Draft} {o : OpId}
    (h : s.createOp draft = .ok (o, s')) : o = ⟨s.ops.size⟩ ∧ Created s draft s' := by
  cases hparent : draft.parent? with
  | some b => simp [createOp, hparent] at h
  | none =>
    obtain ⟨s₁, hok, hcreated⟩ := s.createOp_eq hparent
    rw [hok] at h
    cases h
    exact ⟨rfl, hcreated⟩

namespace Created

variable {s s' : Store} {draft : Draft} (h : Created s draft s')
include h

/-- Reading a field of an operation after a creation. -/
theorem bind_ops {α : Type} (field : Operation → Option α) (i : Nat) :
    s'.ops[i]?.bind field =
      if i = s.ops.size then field (draft.operation s) else s.ops[i]?.bind field := by
  rw [h.ops, Array.getElem?_push]
  split <;> rfl

theorem getElem?_values (i : Nat) : s'.values[i]? =
    if i = s.values.size then draft.resultTy?.map fun ty => ⟨.result ⟨s.ops.size⟩, ty⟩
    else s.values[i]? := by
  rw [h.values]
  cases draft.resultTy? with
  | none =>
    dsimp only
    split
    · next hi => simp [hi]
    · rfl
  | some ty => exact Array.getElem?_push

theorem chainsExact (hs : s.ChainsExact) : s'.ChainsExact where
  nodup v := by
    rw [h.uses, List.nodup_append]
    refine ⟨hs.nodup v, nodup_slotsReading _ _ _, ?_⟩
    rintro use hold _ hnew rfl
    have hread := (hs.mem_uses v use).1 hold
    rw [slot?, (mem_slotsReading.1 hnew).1] at hread
    simp at hread
  mem_uses v use := by
    rw [h.uses, List.mem_append, hs.mem_uses, mem_slotsReading, slot?, slot?, h.bind_ops]
    obtain ⟨⟨user⟩, slot⟩ := use
    by_cases hu : user = s.ops.size
    · simp [hu, Draft.operation]
    · simp [hu]

theorem owned (hs : s.Owned) : s'.Owned := by
  have hresult : ∀ o, s'.result? o =
      if o.index = s.ops.size then (draft.operation s).result? else s.result? o :=
    fun o => h.bind_ops _ _
  have hty : ∀ o, s'.resultTy? o =
      if o.index = s.ops.size then draft.resultTy? else s.resultTy? o :=
    fun o => h.bind_ops _ _
  have hargs : ∀ b, s'.args b = s.args b := fun b => by rw [Store.args, Store.args, h.blocks]
  have hargTys : ∀ b, s'.argTys b = s.argTys b := fun b => by
    rw [Store.argTys, Store.argTys, h.blocks]
  have hold : ∀ (i : Nat) (x : Value), s.values[i]? = some x → s'.values[i]? = some x := by
    intro i x hx
    have := (Array.getElem?_eq_some_iff.1 hx).1
    rw [h.getElem?_values, if_neg (by omega), hx]
  constructor
  case result_isSome =>
    intro o
    rw [hresult, hty]
    split
    · simp [Draft.operation]
    · exact hs.result_isSome o
  case result_origin =>
    intro o v hv
    rw [hresult] at hv
    rw [hty]
    split at hv
    · next ho =>
      obtain ⟨ty, hdraft, rfl⟩ := Option.map_eq_some_iff.1 hv
      refine ⟨ty, by rw [if_pos ho, hdraft], ?_⟩
      rw [h.getElem?_values, if_pos rfl, hdraft, ← ho]
      rfl
    · next ho =>
      obtain ⟨ty, hdraft, hv⟩ := hs.result_origin o v hv
      exact ⟨ty, by rw [if_neg ho, hdraft], hold _ _ hv⟩
  case origin_result =>
    intro o v ty hv
    rw [h.getElem?_values] at hv
    rw [hresult]
    split at hv
    · next hi =>
      obtain ⟨ty', hdraft, heq⟩ := Option.map_eq_some_iff.1 hv
      cases heq
      simp [Draft.operation, hdraft, ← hi]
    · have hv' := hs.origin_result o v ty hv
      have ho : o.index ≠ s.ops.size := by
        intro ho
        simp [result?, ho] at hv'
      rw [if_neg ho, hv']
  case length_args =>
    intro b
    rw [hargs, hargTys]
    exact hs.length_args b
  case arg_origin =>
    intro b i v hv
    rw [hargs] at hv
    obtain ⟨ty, hty, hv⟩ := hs.arg_origin b i v hv
    exact ⟨ty, by rw [hargTys, hty], hold _ _ hv⟩
  case origin_arg =>
    intro b i v ty hv
    rw [h.getElem?_values] at hv
    rw [hargs]
    split at hv
    · obtain ⟨ty', -, heq⟩ := Option.map_eq_some_iff.1 hv
      cases heq
    · exact hs.origin_arg b i v ty hv

theorem consistent (hs : s.Consistent) : s'.Consistent :=
  ⟨h.chainsExact hs.chains, h.owned hs.owned⟩

end Created

/-! ## Placing an operation and taking it out -/

theorem op_eq_ok_iff {s : Store} {o : OpId} {d : Operation} :
    s.op o = .ok d ↔ s.ops[o.index]? = some d := by
  unfold op
  split <;> simp [*]

theorem block_eq_ok_iff {s : Store} {b : BlockId} {d : Block} :
    s.block b = .ok d ↔ s.blocks[b.index]? = some d := by
  unfold block
  split <;> simp [*]

theorem valueTy_eq_ok_iff {s : Store} {v : ValueId} {ty : Ty} :
    s.valueTy v = .ok ty ↔ s.values[v.index]?.map (·.ty) = some ty := by
  unfold valueTy value
  cases s.values[v.index]? <;> simp [Except.map]

/-- Numbers have a type iff they belong to values. -/
theorem isAllocated_iff_valueTy {s : Store} {v : ValueId} :
    s.isAllocated v = true ↔ ∃ ty, s.valueTy v = .ok ty := by
  constructor
  · intro hv
    have hvalue := Array.getElem?_eq_getElem (of_decide_eq_true hv)
    exact ⟨_, valueTy_eq_ok_iff.2 (congrArg (Option.map (·.ty)) hvalue)⟩
  · rintro ⟨ty, hty⟩
    obtain ⟨value, hvalue, -⟩ := Option.map_eq_some_iff.1 (valueTy_eq_ok_iff.1 hty)
    exact isAllocated_of_some hvalue

theorem valueTy_eq_error {s : Store} {v : ValueId} (hv : ¬ s.isAllocated v = true) :
    s.valueTy v = .error .dangling := by
  have hnone : s.values[v.index]? = none :=
    Array.getElem?_eq_none_iff.2 (Nat.not_lt.1 fun hlt => hv (decide_eq_true hlt))
  rw [valueTy, value, hnone]
  rfl

theorem op_lift {ε : Type} {s : Store} {o : OpId} {d : Operation}
    (h : s.ops[o.index]? = some d) : (liftM (s.op o) : Attempt ε Operation) = .ok d :=
  lift_eq_ok.2 (op_eq_ok_iff.2 h)

theorem pushOp_ok {s s' : Store} {b : BlockId} {o : OpId} (h : s.pushOp b o = .ok s') :
    ∃ d target, s.ops[o.index]? = some d ∧ d.parent? = none ∧
      s.blocks[b.index]? = some target ∧
      s' = (s.setParent o (some b)).setBlockOps b (target.ops ++ [o]) := by
  obtain ⟨d, hd, h⟩ := bind_eq_ok.1 h
  split at h
  · cases h
  · next hparent =>
    obtain ⟨target, htarget, h⟩ := bind_eq_ok.1 h
    cases h
    exact ⟨d, target, op_eq_ok_iff.1 hd, by simpa using hparent, block_eq_ok_iff.1 htarget, rfl⟩

theorem insertOpBefore_ok {s s' : Store} {b : BlockId} {before o : OpId}
    (h : s.insertOpBefore b before o = .ok s') :
    ∃ d target place, s.ops[o.index]? = some d ∧ d.parent? = none ∧
      s.blocks[b.index]? = some target ∧ target.ops.idxOf? before = some place ∧
      s' = (s.setBlockOps b (target.ops.insertIdx place o)).setParent o (some b) := by
  obtain ⟨d, hd, h⟩ := bind_eq_ok.1 h
  split at h
  · cases h
  · next hparent =>
    obtain ⟨target, htarget, h⟩ := bind_eq_ok.1 h
    split at h
    · cases h
    · next place hplace =>
      cases h
      exact ⟨d, target, place, op_eq_ok_iff.1 hd, by simpa using hparent,
        block_eq_ok_iff.1 htarget, hplace, rfl⟩

theorem unlinkOp_ok {s s' : Store} {b : BlockId} {o : OpId} (h : s.unlinkOp b o = .ok s') :
    ∃ d target, s.ops[o.index]? = some d ∧ s.blocks[b.index]? = some target ∧
      s' = if d.parent? = some b then
          (s.setBlockOps b (target.ops.filter (· != o))).setParent o none
        else s.setBlockOps b (target.ops.filter (· != o)) := by
  obtain ⟨target, htarget, h⟩ := bind_eq_ok.1 h
  obtain ⟨d, hd, h⟩ := bind_eq_ok.1 h
  cases h
  exact ⟨d, target, op_eq_ok_iff.1 hd, block_eq_ok_iff.1 htarget, rfl⟩

theorem Consistent.setParent {s : Store} (hs : s.Consistent) (o : OpId)
    (parent? : Option BlockId) : (s.setParent o parent?).Consistent where
  chains := hs.chains.congr (fun _ => rfl) (slot?_setParent s o parent?)
  owned := hs.owned.congr (sameOwners_setParent s o parent?)

theorem Consistent.setBlockOps {s : Store} (hs : s.Consistent) (b : BlockId) (ops : List OpId) :
    (s.setBlockOps b ops).Consistent where
  chains := hs.chains.congr (fun _ => rfl) fun _ => rfl
  owned := hs.owned.congr (sameOwners_setBlockOps s b ops)

/-! ## Removing an operation -/

theorem removeOp_ok {s s' : Store} {o : OpId} (h : s.removeOp o = .ok s') :
    ∃ d, s.ops[o.index]? = some d ∧ d.parent? = none ∧
      (∀ v, d.result? = some v → s.uses v = []) ∧ s' = s.dropOperands o d.operands := by
  obtain ⟨d, hd, h⟩ := bind_eq_ok.1 h
  split at h
  · cases h
  · next hparent =>
    split at h
    · cases h
    · next hused =>
      cases h
      refine ⟨d, op_eq_ok_iff.1 hd, by simpa using hparent, ?_, rfl⟩
      intro v hv
      simpa [hv] using hused

theorem sameEntries_dropUses (s : Store) (o : OpId) (slots : List (ValueId × Nat)) :
    SameEntries s (slots.foldl (fun s (operand, i) =>
      s.setUses operand ((s.uses operand).filter (· != ⟨o, i⟩))) s) :=
  sameEntries_foldl (fun s _ => sameEntries_setUses s _ _) _ _

theorem ops_dropOperands (s : Store) (o : OpId) (operands : List ValueId) :
    (s.dropOperands o operands).ops =
      s.ops.modify o.index fun d => { d with operands := [] } := by
  rw [dropOperands, (sameEntries_dropUses s o operands.zipIdx).ops]

theorem blocks_dropOperands (s : Store) (o : OpId) (operands : List ValueId) :
    (s.dropOperands o operands).blocks = s.blocks :=
  (sameEntries_dropUses s o operands.zipIdx).blocks

theorem sameOwners_dropOperands (s : Store) (o : OpId) (operands : List ValueId) :
    SameOwners s (s.dropOperands o operands) := by
  refine (sameEntries_dropUses s o operands.zipIdx).sameOwners.trans ?_
  exact ⟨fun _ => bind_modify _ _ _ fun _ => rfl, fun _ => bind_modify _ _ _ fun _ => rfl, rfl,
    fun _ => rfl, fun _ => rfl⟩

theorem uses_dropOperands (s : Store) (o : OpId) (operands : List ValueId) (v : ValueId) :
    (s.dropOperands o operands).uses v =
      (s.uses v).filter fun use => decide (use ∉ slotsReading o operands v) :=
  uses_dropUses o operands.zipIdx s v

/-- An operation whose operands were dropped has no slots. -/
theorem slot?_dropOperands (s : Store) (o : OpId) (operands : List ValueId) (use : Use) :
    (s.dropOperands o operands).slot? use = if use.user = o then none else s.slot? use := by
  obtain ⟨⟨user⟩, slot⟩ := use
  obtain ⟨o⟩ := o
  rw [slot?, slot?, ops_dropOperands, Array.getElem?_modify]
  by_cases h : o = user
  · subst h
    cases s.ops[o]? <;> simp
  · have h' : user ≠ o := Ne.symm h
    simp [h, h']

theorem ChainsExact.dropOperands {s : Store} (hs : s.ChainsExact) {o : OpId} {d : Operation}
    (hd : s.ops[o.index]? = some d) : (s.dropOperands o d.operands).ChainsExact where
  nodup v := by
    rw [uses_dropOperands]
    exact (hs.nodup v).filter _
  mem_uses v use := by
    rw [uses_dropOperands, slot?_dropOperands, List.mem_filter, hs.mem_uses, decide_eq_true_eq,
      mem_slotsReading]
    by_cases h : use.user = o
    · simp [h, slot?, hd]
    · simp [h]

/-! ## Redirecting uses -/

/-- The store in which every slot that reads `old` reads `new`. -/
def renameUses (s : Store) (old new : ValueId) : Store :=
  let s' := s.setUses old []
  { s'.setUses new (s'.uses new ++ s.uses old) with ops := s.ops.map (Operation.rename old new) }

/-- **Redirecting all uses of a value renames it in every operand**, where the chains are exact. -/
theorem ChainsExact.replaceAllUses {s : Store} (hs : s.ChainsExact) {old new : ValueId}
    (hne : old ≠ new) :
    s.replaceAllUses old new = .ok ((s.uses old).length, s.renameUses old new) := by
  have hredirects := hs.redirects old new
  unfold Store.replaceAllUses
  rw [if_neg hne]
  exact bind_eq_ok.2 ⟨_, hredirects, rfl⟩

theorem uses_renameUses (s : Store) {old new : ValueId} (hne : old ≠ new) (v : ValueId) :
    (s.renameUses old new).uses v =
      if v = new then s.uses new ++ s.uses old else if v = old then [] else s.uses v := by
  show ((s.setUses old []).setUses new _).uses v = _
  rw [uses_setUses, uses_setUses, uses_setUses]
  by_cases hnew : v = new
  · simp [hnew, hne]
  · by_cases hold : v = old
    · simp [hold, Ne.symm hne, hne]
    · simp [hnew, hold, Ne.symm hnew, Ne.symm hold]

theorem slot?_renameUses (s : Store) (old new : ValueId) (use : Use) :
    (s.renameUses old new).slot? use = (s.slot? use).map (ValueId.rename old new) := by
  show (s.ops.map _)[use.user.index]?.bind _ = _
  rw [Array.getElem?_map, slot?]
  cases s.ops[use.user.index]? with
  | none => rfl
  | some d => exact List.getElem?_map

theorem sameOwners_renameUses (s : Store) (old new : ValueId) :
    SameOwners s (s.renameUses old new) where
  result? o := by
    show (s.ops.map _)[o.index]?.bind _ = _
    rw [Array.getElem?_map, result?]
    cases s.ops[o.index]? <;> rfl
  resultTy? o := by
    show (s.ops.map _)[o.index]?.bind _ = _
    rw [Array.getElem?_map, resultTy?]
    cases s.ops[o.index]? <;> rfl
  values := rfl
  args _ := rfl
  argTys _ := rfl

theorem ChainsExact.renameUses {s : Store} (hs : s.ChainsExact) {old new : ValueId}
    (hne : old ≠ new) : (s.renameUses old new).ChainsExact where
  nodup v := by
    rw [uses_renameUses s hne]
    split
    · refine List.nodup_append.2 ⟨hs.nodup new, hs.nodup old, ?_⟩
      rintro use hnew _ hold rfl
      have hread := (hs.mem_uses _ _).1 hnew
      rw [(hs.mem_uses _ _).1 hold] at hread
      exact hne (Option.some.inj hread)
    · split
      · exact List.nodup_nil
      · exact hs.nodup v
  mem_uses v use := by
    have hchain := fun v => hs.mem_uses v use
    rw [uses_renameUses s hne, slot?_renameUses]
    cases hread : s.slot? use with
    | none =>
      simp only [hread, reduceCtorEq, iff_false] at hchain
      split
      · simp [hchain]
      · split <;> simp [hchain]
    | some x =>
      simp only [hread, Option.some.injEq] at hchain
      simp only [Option.map_some, ValueId.rename]
      split
      · next hv =>
        subst hv
        rw [List.mem_append, hchain, hchain]
        grind
      · split
        · simp only [List.not_mem_nil, false_iff]
          grind
        · rw [hchain]
          grind

theorem replaceAllUses_ok {s s' : Store} (hs : s.ChainsExact) {old new : ValueId} {n : Nat}
    (h : s.replaceAllUses old new = .ok (n, s')) :
    s' = if old = new then s else s.renameUses old new := by
  split
  · next heq =>
    rw [Store.replaceAllUses, if_pos heq] at h
    cases h
    rfl
  · next hne =>
    rw [hs.replaceAllUses hne] at h
    cases h
    rfl

/-! ## Reachable stores -/

/-- An elementary change. -/
inductive Change
  | createBlock (argTys : List Ty) (ops : List OpId)
  | createOp (draft : Draft)
  | pushOp (block : BlockId) (op : OpId)
  | insertOpBefore (block : BlockId) (before op : OpId)
  | unlinkOp (block : BlockId) (op : OpId)
  | removeOp (op : OpId)
  | replaceAllUses (old new : ValueId)
  deriving DecidableEq, Repr

/-- The store that a change leaves. -/
def Change.apply (s : Store) : Change → Except Fault Store
  | .createBlock argTys ops => .ok (s.createBlock argTys ops).2
  | .createOp draft => (s.createOp draft).map (·.2)
  | .pushOp b o => s.pushOp b o
  | .insertOpBefore b before o => s.insertOpBefore b before o
  | .unlinkOp b o => s.unlinkOp b o
  | .removeOp o => s.removeOp o
  | .replaceAllUses old new => (s.replaceAllUses old new).map (·.2)

/-- The stores that changes lead to from the empty one. -/
inductive Reachable : Store → Prop
  | empty : Reachable empty
  | step {s s' : Store} (change : Change) : Reachable s → change.apply s = .ok s' → Reachable s'

/-- **Every change keeps a store consistent.** -/
theorem Consistent.step {s s' : Store} (hs : s.Consistent) {change : Change}
    (h : change.apply s = .ok s') : s'.Consistent := by
  cases change with
  | createBlock argTys ops =>
    cases h
    exact hs.createBlock argTys ops
  | createOp draft =>
    obtain ⟨⟨o, s'⟩, hok, rfl⟩ := map_eq_ok.1 h
    exact (createOp_ok hok).2.consistent hs
  | pushOp b o =>
    obtain ⟨d, target, -, -, -, rfl⟩ := pushOp_ok h
    exact (hs.setParent _ _).setBlockOps _ _
  | insertOpBefore b before o =>
    obtain ⟨d, target, place, -, -, -, -, rfl⟩ := insertOpBefore_ok h
    exact (hs.setBlockOps _ _).setParent _ _
  | unlinkOp b o =>
    obtain ⟨d, target, -, -, rfl⟩ := unlinkOp_ok h
    split
    · exact (hs.setBlockOps _ _).setParent _ _
    · exact hs.setBlockOps _ _
  | removeOp o =>
    obtain ⟨d, hd, -, -, rfl⟩ := removeOp_ok h
    exact ⟨hs.chains.dropOperands hd, hs.owned.congr (sameOwners_dropOperands _ _ _)⟩
  | replaceAllUses old new =>
    obtain ⟨⟨n, s'⟩, hok, rfl⟩ := map_eq_ok.1 h
    obtain rfl := replaceAllUses_ok hs.chains hok
    split
    · exact hs
    · next hne => exact ⟨hs.chains.renameUses hne, hs.owned.congr (sameOwners_renameUses _ _ _)⟩

/-- **Reachable stores are consistent.** -/
theorem Reachable.consistent {s : Store} (h : Reachable s) : s.Consistent := by
  induction h with
  | empty => exact consistent_empty
  | step change _ hstep ih => exact ih.step hstep

theorem Reachable.foldlM {changes : List Change} {s s' : Store} (h : Reachable s)
    (hs : changes.foldlM Change.apply s = .ok s') : Reachable s' := by
  induction changes generalizing s with
  | nil =>
    cases hs
    exact h
  | cons change rest ih =>
    obtain ⟨s₁, hstep, hrest⟩ := bind_eq_ok.1 hs
    exact ih (h.step change hstep) hrest

end Mba.Store
