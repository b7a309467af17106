import Mba.Proofs.Store.Chains

/-!
# Values and what defines them

Every value is the result of one operation or one argument of one block, and says which. `Owned`
states both directions.

Results:
* `Owned.result_inj`: no two operations define the same value.
-/

namespace Mba.Store

/-- The type of the value that an operation defines. -/
def resultTy? (s : Store) (o : OpId) : Option Ty :=
  s.ops[o.index]?.bind (·.resultTy?)

/-- The types of the arguments of a block; a block that does not exist has none. -/
def argTys (s : Store) (b : BlockId) : List Ty :=
  (s.blocks[b.index]?.map (·.argTys)).getD []

theorem args_eq (s : Store) (b : BlockId) :
    s.args b = (s.blocks[b.index]?.map (·.args)).getD [] := by
  unfold args
  cases s.blocks[b.index]? <;> rfl

variable {s : Store} {o : OpId} {d : Operation}

theorem result?_eq (h : s.ops[o.index]? = some d) :
    s.result? o = d.result? := by
  rw [result?, h, Option.bind_some]

theorem resultTy?_eq (h : s.ops[o.index]? = some d) :
    s.resultTy? o = d.resultTy? := by
  rw [resultTy?, h, Option.bind_some]

/-- Values and what defines them name each other. -/
structure Owned (s : Store) : Prop where
  result_isSome : ∀ o, (s.result? o).isSome = (s.resultTy? o).isSome
  result_origin : ∀ (o : OpId) (v : ValueId), s.result? o = some v →
    ∃ ty, s.resultTy? o = some ty ∧ s.values[v.index]? = some ⟨.result o, ty⟩
  origin_result : ∀ (o : OpId) (v : ValueId) (ty : Ty),
    s.values[v.index]? = some ⟨.result o, ty⟩ → s.result? o = some v
  length_args : ∀ b, (s.args b).length = (s.argTys b).length
  arg_origin : ∀ (b : BlockId) (i : Nat) (v : ValueId), (s.args b)[i]? = some v →
    ∃ ty, (s.argTys b)[i]? = some ty ∧ s.values[v.index]? = some ⟨.argument b i, ty⟩
  origin_arg : ∀ (b : BlockId) (i : Nat) (v : ValueId) (ty : Ty),
    s.values[v.index]? = some ⟨.argument b i, ty⟩ → (s.args b)[i]? = some v

/-- The stores have the same values, defined in the same way. -/
structure SameOwners (s s' : Store) : Prop where
  result? : ∀ o, s'.result? o = s.result? o
  resultTy? : ∀ o, s'.resultTy? o = s.resultTy? o
  values : s'.values = s.values
  args : ∀ b, s'.args b = s.args b
  argTys : ∀ b, s'.argTys b = s.argTys b

theorem SameOwners.trans {s s' s'' : Store} (h : SameOwners s s') (h' : SameOwners s' s'') :
    SameOwners s s'' where
  result? o := (h'.result? o).trans (h.result? o)
  resultTy? o := (h'.resultTy? o).trans (h.resultTy? o)
  values := h'.values.trans h.values
  args b := (h'.args b).trans (h.args b)
  argTys b := (h'.argTys b).trans (h.argTys b)

theorem SameEntries.sameOwners {s s' : Store} (h : SameEntries s s') : SameOwners s s' where
  result? o := by rw [Store.result?, Store.result?, h.ops]
  resultTy? o := by rw [Store.resultTy?, Store.resultTy?, h.ops]
  values := h.values
  args b := by rw [Store.args, Store.args, h.blocks]
  argTys b := by rw [Store.argTys, Store.argTys, h.blocks]

theorem Owned.congr {s s' : Store} (hs : s.Owned) (h : SameOwners s s') : s'.Owned := by
  constructor
  · intro o
    rw [h.result?, h.resultTy?]
    exact hs.result_isSome o
  · intro o v hv
    rw [h.result?] at hv
    rw [h.resultTy?, h.values]
    exact hs.result_origin o v hv
  · intro o v ty hv
    rw [h.values] at hv
    rw [h.result?]
    exact hs.origin_result o v ty hv
  · intro b
    rw [h.args, h.argTys]
    exact hs.length_args b
  · intro b i v hv
    rw [h.args] at hv
    rw [h.argTys, h.values]
    exact hs.arg_origin b i v hv
  · intro b i v ty hv
    rw [h.values] at hv
    rw [h.args]
    exact hs.origin_arg b i v ty hv

/-- **No two operations define the same value.** -/
theorem Owned.result_inj {s : Store} (hs : s.Owned) {o o' : OpId} {v : ValueId}
    (h : s.result? o = some v) (h' : s.result? o' = some v) : o = o' := by
  obtain ⟨ty, -, hv⟩ := hs.result_origin o v h
  obtain ⟨ty', -, hv'⟩ := hs.result_origin o' v h'
  rw [hv] at hv'
  cases hv'
  rfl

/-- No result is an argument of a block. -/
theorem Owned.result_notMem_args {s : Store} (hs : s.Owned) {o : OpId} {v : ValueId}
    (h : s.result? o = some v) (b : BlockId) : v ∉ s.args b := by
  intro hmem
  obtain ⟨i, hi⟩ := List.getElem?_of_mem hmem
  obtain ⟨ty, -, hv⟩ := hs.result_origin o v h
  obtain ⟨ty', -, hv'⟩ := hs.arg_origin b i v hi
  rw [hv] at hv'
  cases hv'

theorem isAllocated_of_some {s : Store} {v : ValueId} {value : Value}
    (h : s.values[v.index]? = some value) : s.isAllocated v = true :=
  decide_eq_true (Array.getElem?_eq_some_iff.1 h).1

theorem Owned.isAllocated_of_result? {s : Store} (hs : s.Owned) {o : OpId} {v : ValueId}
    (h : s.result? o = some v) : s.isAllocated v = true := by
  obtain ⟨ty, -, hvalue⟩ := hs.result_origin o v h
  exact isAllocated_of_some hvalue

theorem Owned.isAllocated_of_mem_args {s : Store} (hs : s.Owned) {b : BlockId} {v : ValueId}
    (h : v ∈ s.args b) : s.isAllocated v = true := by
  obtain ⟨i, hi⟩ := List.getElem?_of_mem h
  obtain ⟨ty, -, hvalue⟩ := hs.arg_origin b i v hi
  exact isAllocated_of_some hvalue

/-! ## Entries that are set -/

theorem getElem?_ops_setParent (s : Store) (o : OpId) (parent? : Option BlockId) (i : Nat) :
    (s.setParent o parent?).ops[i]? =
      if o.index = i then s.ops[i]?.map fun d => { d with parent? } else s.ops[i]? :=
  Array.getElem?_modify

theorem getElem?_blocks_setBlockOps (s : Store) (b : BlockId) (ops : List OpId) (i : Nat) :
    (s.setBlockOps b ops).blocks[i]? =
      if b.index = i then s.blocks[i]?.map fun d => { d with ops } else s.blocks[i]? :=
  Array.getElem?_modify

/-- A change of one operation that keeps a field of it keeps that field everywhere. -/
theorem bind_modify {α : Type} (ops : Array Operation) (i j : Nat) {f : Operation → Operation}
    {field : Operation → Option α} (h : ∀ d, field (f d) = field d) :
    (ops.modify i f)[j]?.bind field = ops[j]?.bind field := by
  rw [Array.getElem?_modify]
  split
  · cases ops[j]? with
    | none => rfl
    | some d => exact h d
  · rfl

theorem sameOwners_setParent (s : Store) (o : OpId) (parent? : Option BlockId) :
    SameOwners s (s.setParent o parent?) where
  result? _ := bind_modify _ _ _ fun _ => rfl
  resultTy? _ := bind_modify _ _ _ fun _ => rfl
  values := rfl
  args _ := rfl
  argTys _ := rfl

theorem sameOwners_setBlockOps (s : Store) (b : BlockId) (ops : List OpId) :
    SameOwners s (s.setBlockOps b ops) where
  result? _ := rfl
  resultTy? _ := rfl
  values := rfl
  args b' := by
    rw [args_eq, args_eq, getElem?_blocks_setBlockOps]
    split
    · rw [Option.map_map]
      rfl
    · rfl
  argTys b' := by
    rw [Store.argTys, Store.argTys, getElem?_blocks_setBlockOps]
    split
    · rw [Option.map_map]
      rfl
    · rfl

theorem slot?_setParent (s : Store) (o : OpId) (parent? : Option BlockId) (use : Use) :
    (s.setParent o parent?).slot? use = s.slot? use :=
  bind_modify _ _ _ fun _ => rfl

end Mba.Store
