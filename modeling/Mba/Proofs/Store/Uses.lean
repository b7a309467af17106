import Mathlib.Algebra.Ring.Nat
import Mathlib.Data.List.Nodup
import Mba.Proofs.Store.Reachable

/-!
# What use chains count

In a reachable store a use chain lists each slot that reads its value exactly once, whatever the
operands: repeated ones, the operation's own result, and numbers that no value has yet. So the
length of a chain is the number of slots that read the value in the whole store, and redirecting the
uses of a value reaches all of them.

Results:
* `ChainsExact.count_uses`: a slot stands once in the chain of the value it reads, and in no other.
* `ChainsExact.length_uses`: a chain is as long as the slots that read its value are many.
* `readCount_renameUses`: no slot reads a value whose uses were redirected.
* `Reachable.uses_spec`: all of this for reachable stores.
-/

namespace Mba.Store

variable {s : Store} {v : ValueId}

/-- The number of operand slots of the whole store that read a value. -/
def readCount (s : Store) (v : ValueId) : Nat :=
  (s.ops.toList.map fun d => d.operands.count v).sum

/-- The operand slots of the whole store that read a value. -/
def readingSlots (s : Store) (v : ValueId) : List Use :=
  s.ops.toList.zipIdx.flatMap fun (d, i) => slotsReading ⟨i⟩ d.operands v

/-! ## All slots that read a value -/

theorem length_slotsReading (o : OpId) (operands : List ValueId) (v : ValueId) :
    (slotsReading o operands v).length = operands.count v := by
  have hcount : operands.count v = (operands.zipIdx.map Prod.fst).count v := by
    rw [List.zipIdx_map_fst]
  rw [slotsReading, List.length_map, hcount, List.count, List.countP_map, List.countP_eq_length_filter]
  rfl

theorem length_readingSlots (s : Store) (v : ValueId) :
    (s.readingSlots v).length = s.readCount v := by
  have hops : s.ops.toList = s.ops.toList.zipIdx.map Prod.fst := (List.zipIdx_map_fst _ _).symm
  rw [readingSlots, readCount, List.length_flatMap, hops, List.map_map, ← hops]
  congr 2
  funext x
  exact length_slotsReading _ _ _

theorem mem_readingSlots {use : Use} : use ∈ s.readingSlots v ↔ s.slot? use = some v := by
  obtain ⟨⟨user⟩, slot⟩ := use
  simp only [readingSlots, List.mem_flatMap, Prod.exists, List.mem_zipIdx_iff_getElem?,
    Array.getElem?_toList, mem_slotsReading, slot?, Option.bind_eq_some_iff]
  constructor
  · rintro ⟨d, i, hd, huser, hread⟩
    cases huser
    exact ⟨d, hd, hread⟩
  · rintro ⟨d, hd, hread⟩
    exact ⟨d, user, hd, rfl, hread⟩

theorem nodup_readingSlots (s : Store) (v : ValueId) : (s.readingSlots v).Nodup := by
  refine List.nodup_flatMap.2 ⟨fun x _ => nodup_slotsReading _ _ _, ?_⟩
  have hplaces : (s.ops.toList.zipIdx.map Prod.snd).Nodup := by
    rw [List.zipIdx_map_snd]
    exact List.nodup_range'
  -- slots of different operations differ in their operation
  refine (List.pairwise_map.1 hplaces).imp ?_
  intro x y hne use hx hy
  have heq := (mem_slotsReading.1 hx).1.symm.trans (mem_slotsReading.1 hy).1
  exact hne (OpId.mk.inj heq)

/-- Nothing reads a value iff no slot does. -/
theorem readCount_eq_zero_iff : s.readCount v = 0 ↔ ∀ use, s.slot? use ≠ some v := by
  rw [← length_readingSlots, List.length_eq_zero_iff, List.eq_nil_iff_forall_not_mem]
  simp only [mem_readingSlots, ne_eq]

/-! ## Exact chains -/

/-- **A slot stands once in the chain of the value it reads, and in no other.** -/
theorem ChainsExact.count_uses (hs : s.ChainsExact) (v : ValueId) (use : Use) :
    (s.uses v).count use = if s.slot? use = some v then 1 else 0 := by
  have hmem := hs.mem_uses v use
  split
  · next hread => exact List.count_eq_one_of_mem (hs.nodup v) (hmem.2 hread)
  · next hread => exact List.count_eq_zero.2 fun huse => hread (hmem.1 huse)

/-- **A chain is as long as the slots that read its value are many.** -/
theorem ChainsExact.length_uses (hs : s.ChainsExact) (v : ValueId) :
    (s.uses v).length = s.readCount v := by
  have hperm : (s.uses v).Perm (s.readingSlots v) := by
    refine (List.perm_ext_iff_of_nodup (hs.nodup v) (nodup_readingSlots s v)).2 fun use => ?_
    rw [hs.mem_uses, mem_readingSlots]
  rw [hperm.length_eq, length_readingSlots]

/-- **No slot reads a value whose uses were redirected.** -/
theorem readCount_renameUses (s : Store) {old new : ValueId} (hne : old ≠ new) :
    (s.renameUses old new).readCount old = 0 := by
  refine readCount_eq_zero_iff.2 fun use hread => ?_
  rw [slot?_renameUses] at hread
  obtain ⟨v, -, hv⟩ := Option.map_eq_some_iff.1 hread
  unfold ValueId.rename at hv
  split at hv
  · exact hne hv.symm
  · next h => exact h hv

/-- **The use chains of a reachable store.** A slot stands exactly once in the chain of the
value it reads, and in no other. Redirecting the uses of a value succeeds: it gives the number
of slots of the whole store that read the value, after it they all read the new one, and no
other slot changes. -/
theorem Reachable.uses_spec (hs : s.Reachable) :
    (∀ v o i, (s.uses v).count ⟨o, i⟩ = if s.slot? ⟨o, i⟩ = some v then 1 else 0) ∧
      ∀ old new, old ≠ new →
        ∃ s', s.replaceAllUses old new = .ok (s.readCount old, s') ∧ s'.readCount old = 0 ∧
          ∀ use, s'.slot? use = (s.slot? use).map (ValueId.rename old new) := by
  have hchains := hs.consistent.chains
  refine ⟨fun v o i => hchains.count_uses v ⟨o, i⟩, fun old new hne => ?_⟩
  refine ⟨s.renameUses old new, ?_, readCount_renameUses s hne, slot?_renameUses s old new⟩
  rw [hchains.replaceAllUses hne, hchains.length_uses]

/-- A store whose first operation reads its own result, and whose second one reads a number that no
value has, twice. -/
def loopStore : Store where
  ops := #[⟨.binary .add, [⟨0⟩, ⟨1⟩], some (.int .w8), some ⟨1⟩, some ⟨0⟩⟩,
    ⟨.ret, [⟨5⟩, ⟨0⟩, ⟨5⟩], none, none, none⟩]
  values := #[⟨.argument ⟨0⟩ 0, .int .w8⟩, ⟨.result ⟨0⟩, .int .w8⟩]
  blocks := #[⟨[.int .w8], [⟨0⟩], [⟨0⟩]⟩]
  chains := ⟨#[some [⟨⟨0⟩, 0⟩, ⟨⟨1⟩, 1⟩], some [⟨⟨0⟩, 1⟩], none, none, none,
    some [⟨⟨1⟩, 0⟩, ⟨⟨1⟩, 2⟩]]⟩

theorem reachable_loopStore : loopStore.Reachable :=
  Reachable.foldlM .empty
    (show [.createBlock [.int .w8] [],
        .createOp ⟨.binary .add, [⟨0⟩, ⟨1⟩], some (.int .w8), none⟩, .pushOp ⟨0⟩ ⟨0⟩,
        .createOp ⟨.ret, [⟨5⟩, ⟨0⟩, ⟨5⟩], none, none⟩].foldlM Change.apply Store.empty =
      .ok loopStore from rfl)

theorem uses_spec_loopStore :
    (loopStore.uses ⟨5⟩).count ⟨⟨1⟩, 2⟩ = 1 ∧
      ∃ s', loopStore.replaceAllUses ⟨5⟩ ⟨1⟩ = .ok (2, s') ∧ s'.readCount ⟨5⟩ = 0 := by
  obtain ⟨hcount, hreplace⟩ := Reachable.uses_spec reachable_loopStore
  obtain ⟨s', hok, hnone, -⟩ := hreplace ⟨5⟩ ⟨1⟩ (by decide)
  exact ⟨hcount ⟨5⟩ ⟨1⟩ 2, s', hok, hnone⟩

end Mba.Store
