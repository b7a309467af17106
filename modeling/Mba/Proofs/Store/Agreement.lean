import Mba.Proofs.Store.Placement

/-!
# What the entries of a store say of each other

A store says three things twice. An operation names the block in which it is placed, and a block
lists its operations. Operations and blocks name the values that they define, and a value names what
defines it, with its type on both sides. An operation has a result, and a type for it. Where all
blocks are created empty, the two sides never differ.

Results:
* `Arranged.parent?_eq_some_iff`: an operation is placed exactly where it is listed.
* `Owned.value_cases`: a value has one definer, an operation or an argument of a block.
* `ReachableEmpty.entries_agree`: all of this for the stores that changes lead to.
-/

namespace Mba.Store

variable {s : Store} {v : ValueId} {o : OpId} {b b' : BlockId} {i : Nat}

/-! ## Blocks and operations -/

/-- **An operation is placed exactly where it is listed.** -/
theorem Arranged.parent?_eq_some_iff (h : s.Arranged) (hs : s.Housed) :
    s.parent? o = some b ↔ ∃ d, s.blocks[b.index]? = some d ∧ o ∈ d.ops :=
  ⟨hs o b, fun ⟨d, hd, ho⟩ => h.parent b d hd o ho⟩

/-- No two blocks list the same operation. -/
theorem Arranged.block_unique (h : s.Arranged) {d d' : Block} (hd : s.blocks[b.index]? = some d)
    (hd' : s.blocks[b'.index]? = some d') (ho : o ∈ d.ops) (ho' : o ∈ d'.ops) : b = b' :=
  Option.some.inj ((h.parent b d hd o ho).symm.trans (h.parent b' d' hd' o ho'))

/-! ## Values and what defines them -/

/-- The value is the result of `o`, of no other operation, and no argument of a block. -/
structure OnlyResult (s : Store) (v : ValueId) (o : OpId) : Prop where
  entry : ∃ ty, s.values[v.index]? = some ⟨.result o, ty⟩ ∧ s.resultTy? o = some ty
  result?_iff : ∀ o', s.result? o' = some v ↔ o' = o
  notMem_args : ∀ b, v ∉ s.args b

/-- The value is the argument of `b` at place `i`, no other argument, and no result. -/
structure OnlyArgument (s : Store) (v : ValueId) (b : BlockId) (i : Nat) : Prop where
  entry : ∃ ty, s.values[v.index]? = some ⟨.argument b i, ty⟩ ∧ (s.argTys b)[i]? = some ty
  args_iff : ∀ b' i', (s.args b')[i']? = some v ↔ b' = b ∧ i' = i
  result?_ne : ∀ o, s.result? o ≠ some v

theorem Owned.onlyResult (hs : s.Owned) (hresult : s.result? o = some v) : s.OnlyResult v o where
  entry := by
    obtain ⟨ty, hty, hv⟩ := hs.result_origin o v hresult
    exact ⟨ty, hv, hty⟩
  result?_iff o' := ⟨fun hresult' => hs.result_inj hresult' hresult, fun heq => heq ▸ hresult⟩
  notMem_args := hs.result_notMem_args hresult

theorem Owned.onlyArgument (hs : s.Owned) (harg : (s.args b)[i]? = some v) :
    s.OnlyArgument v b i where
  entry := by
    obtain ⟨ty, hty, hv⟩ := hs.arg_origin b i v harg
    exact ⟨ty, hv, hty⟩
  args_iff b' i' := by
    constructor
    · intro harg'
      obtain ⟨ty, -, hv⟩ := hs.arg_origin b i v harg
      obtain ⟨ty', -, hv'⟩ := hs.arg_origin b' i' v harg'
      rw [hv] at hv'
      cases hv'
      exact ⟨rfl, rfl⟩
    · rintro ⟨rfl, rfl⟩
      exact harg
  result?_ne o hresult := hs.result_notMem_args hresult b (List.mem_of_getElem? harg)

/-- **A value has one definer**, an operation or an argument of a block. -/
theorem Owned.value_cases (hs : s.Owned) (hv : s.isAllocated v = true) :
    (∃ o, s.OnlyResult v o) ∨ ∃ b i, s.OnlyArgument v b i := by
  obtain ⟨⟨origin, ty⟩, hentry⟩ : ∃ entry, s.values[v.index]? = some entry :=
    ⟨_, Array.getElem?_eq_getElem (of_decide_eq_true hv)⟩
  cases origin with
  | result o => exact .inl ⟨o, hs.onlyResult (hs.origin_result o v ty hentry)⟩
  | argument b i => exact .inr ⟨b, i, hs.onlyArgument (hs.origin_arg b i v ty hentry)⟩

/-! ## Reachable stores -/

/-- **The entries of a store agree**, where all blocks are created empty. An operation is placed
exactly where it is listed. A block lists each operation once, and no other block lists it. Each
value is the result of one operation or one argument of one block, never both, and says so, with the
type that its definer has for it. An operation has a result exactly if it has a type for it. -/
theorem ReachableEmpty.entries_agree (h : s.ReachableEmpty) :
    (∀ o b, s.parent? o = some b ↔ ∃ d, s.blocks[b.index]? = some d ∧ o ∈ d.ops) ∧
      (∀ (b : BlockId) d, s.blocks[b.index]? = some d → d.ops.Nodup ∧
        ∀ (b' : BlockId) d' o, s.blocks[b'.index]? = some d' → o ∈ d.ops → o ∈ d'.ops → b = b') ∧
      (∀ v, s.isAllocated v = true →
        (∃ o, s.OnlyResult v o) ∨ ∃ b i, s.OnlyArgument v b i) ∧
      ∀ o, (s.result? o).isSome = (s.resultTy? o).isSome := by
  have harranged := h.arranged
  have howned := h.reachable.consistent.owned
  refine ⟨fun o b => harranged.parent?_eq_some_iff h.reachable.housed, fun b d hd => ?_,
    fun v hv => howned.value_cases hv, howned.result_isSome⟩
  exact ⟨harranged.nodup b d hd, fun b' d' o hd' => harranged.block_unique hd hd'⟩

/-- A store of two blocks, between which the first operation was moved. The second one reads the
result of the first, and of the last one, which was in the second block for a while and is in none
now. -/
def movedStore : Store where
  ops := #[⟨.binary .add, [⟨0⟩, ⟨0⟩], some (.int .w8), some ⟨2⟩, some ⟨1⟩⟩,
    ⟨.binary .mul, [⟨2⟩, ⟨4⟩], some (.int .w8), some ⟨3⟩, some ⟨0⟩⟩,
    ⟨.ret, [⟨3⟩], none, none, some ⟨0⟩⟩,
    ⟨.unary .not, [⟨0⟩], some (.int .w8), some ⟨4⟩, none⟩]
  values := #[⟨.argument ⟨0⟩ 0, .int .w8⟩, ⟨.argument ⟨1⟩ 0, .int .w8⟩, ⟨.result ⟨0⟩, .int .w8⟩,
    ⟨.result ⟨1⟩, .int .w8⟩, ⟨.result ⟨3⟩, .int .w8⟩]
  blocks := #[⟨[.int .w8], [⟨0⟩], [⟨1⟩, ⟨2⟩]⟩, ⟨[.int .w8], [⟨1⟩], [⟨0⟩]⟩]
  chains := ⟨#[some [⟨⟨0⟩, 0⟩, ⟨⟨0⟩, 1⟩, ⟨⟨3⟩, 0⟩], none, some [⟨⟨1⟩, 0⟩], some [⟨⟨2⟩, 0⟩],
    some [⟨⟨1⟩, 1⟩]]⟩

theorem reachableEmpty_movedStore : movedStore.ReachableEmpty :=
  .foldlM .empty (by decide)
    (show [.createBlock [.int .w8] [], .createBlock [.int .w8] [],
        .createOp ⟨.binary .add, [⟨0⟩, ⟨0⟩], some (.int .w8), none⟩,
        .createOp ⟨.binary .mul, [⟨2⟩, ⟨4⟩], some (.int .w8), none⟩,
        .createOp ⟨.ret, [⟨3⟩], none, none⟩, .createOp ⟨.unary .not, [⟨0⟩], some (.int .w8), none⟩,
        .pushOp ⟨0⟩ ⟨2⟩, .insertOpBefore ⟨0⟩ ⟨2⟩ ⟨1⟩, .insertOpBefore ⟨0⟩ ⟨1⟩ ⟨0⟩, .pushOp ⟨1⟩ ⟨3⟩,
        .unlinkOp ⟨0⟩ ⟨3⟩, .unlinkOp ⟨1⟩ ⟨3⟩, .unlinkOp ⟨0⟩ ⟨0⟩, .pushOp ⟨1⟩ ⟨0⟩].foldlM
          Change.apply Store.empty =
      .ok movedStore from rfl)

theorem entries_agree_moved :
    (∃ d, movedStore.blocks[1]? = some d ∧ (⟨0⟩ : OpId) ∈ d.ops) ∧
      (∃ o, movedStore.OnlyResult ⟨4⟩ o) ∧ ∃ b i, movedStore.OnlyArgument ⟨1⟩ b i := by
  obtain ⟨hplaced, -, hvalues, -⟩ := ReachableEmpty.entries_agree reachableEmpty_movedStore
  refine ⟨(hplaced ⟨0⟩ ⟨1⟩).1 (by decide), ?_, ?_⟩
  · rcases hvalues ⟨4⟩ (by decide) with hresult | ⟨b, i, hargument⟩
    · exact hresult
    · exact absurd (show movedStore.result? ⟨3⟩ = some ⟨4⟩ by decide) (hargument.result?_ne ⟨3⟩)
  · rcases hvalues ⟨1⟩ (by decide) with ⟨o, hresult⟩ | hargument
    · exact absurd (show (⟨1⟩ : ValueId) ∈ movedStore.args ⟨1⟩ by decide) (hresult.notMem_args ⟨1⟩)
    · exact hargument

end Mba.Store
