import Mba.Proofs.Mutation.Rebinding
import Mba.Proofs.Store.Placement
import Mba.Proofs.Store.Uses

/-!
# Whatever is rebound

Rebinding in any reachable store: an operation placed or not, listed several times or in several
blocks, read from other programs or by itself, and rebound to any number. It is refused in three
cases, before anything is changed. In all others it goes through, since a placed operation of a
reachable store is listed by its block, and since nothing reads its result any more when it is
removed.

Results:
* `Rebound.readCount_old`: nothing reads the result of an operation that was rebound.
* `rebind_self_of_read`: rebinding a result that is read to itself is refused.
* `rebind_done`: rebinding a placed operation succeeds otherwise.
* `Reachable.rebind_spec`: how rebinding ends, in every reachable store.
-/

namespace Mba.Store

variable {s s' : Store} {o : OpId} {d : Operation} {b : BlockId} {old new : ValueId}

/-! ## What is left of a result -/

/-- **Nothing reads the result of an operation that was rebound**, unless it was rebound to
itself. -/
theorem Rebound.readCount_old (h : s.Rebound b o old new s')
    (hself : new = old → s.readCount old = 0) : s'.readCount old = 0 := by
  refine readCount_eq_zero_iff.2 fun use hread => ?_
  rw [h.slot?] at hread
  split at hread
  · cases hread
  · obtain ⟨v, hv, hrenamed⟩ := Option.map_eq_some_iff.1 hread
    rw [ValueId.rename] at hrenamed
    split at hrenamed
    · next heq =>
      have hnone := readCount_eq_zero_iff.1 (hself hrenamed)
      exact hnone use (heq ▸ hv)
    · next hne => exact hne hrenamed

theorem Rebound.entry (h : s.Rebound b o old new s') (hd : s.ops[o.index]? = some d) :
    s'.ops[o.index]? = some { d with operands := [], parent? := none } := by
  rw [h.ops, if_pos rfl, hd, Option.map_some]

/-- Taking an operation out is rebinding it to its own result. -/
theorem TakenOut.rebound_self (h : s.TakenOut b o s') (old : ValueId) :
    s.Rebound b o old old s' := by
  have hrename : Operation.rename old old = id := by
    funext d
    have hid : ValueId.rename old old = id := by
      funext v
      unfold ValueId.rename
      split <;> simp [*]
    simp [Operation.rename, hid]
  refine ⟨fun i => ?_, h.owners, h.blocks, fun v _ _ hv => h.uses v hv, h.consistent⟩
  rw [h.ops, hrename, Option.map_id, id]

/-! ## Rebindings that are refused -/

/-- An operation without a result is not rebound. -/
theorem rebind_of_result_none (hd : s.ops[o.index]? = some d) (hresult : d.result? = none)
    (new : ValueId) : Store.rebind o new s = .failed (.noResult o) s := by
  have hrebindable : rebindable s o = Attempt.fail (.noResult o) := by
    rw [rebindable, result?_eq hd, hresult]
  exact Edit.bind_failed (Edit.read_failed hrebindable)

/-- An operation that is not placed is not rebound. -/
theorem rebind_of_detached (hd : s.ops[o.index]? = some d) (hresult : d.result? = some old)
    (hparent : d.parent? = none) (new : ValueId) :
    Store.rebind o new s = .failed (.build (.detached o)) s := by
  have hrebindable : rebindable s o = Attempt.fail (.build (.detached o)) := by
    rw [rebindable, result?_eq hd, hresult]
    dsimp only
    rw [op_lift hd]
    simp only [bind, Except.bind, hparent]
  exact Edit.bind_failed (Edit.read_failed hrebindable)

/-- **A result that is read is not rebound to itself.** -/
theorem rebind_self_of_read (hd : s.ops[o.index]? = some d) (hresult : d.result? = some old)
    (hparent : d.parent? = some b) (hread : 0 < (s.uses old).length) :
    Store.rebind o old s = .failed (.danglingUses old (s.uses old).length) s := by
  have hrebindable : (Edit.read (rebindable · o) : Edit Store MutationError _) s =
      .done (old, b) s := Edit.read_done (rebindable_eq_ok hd hresult hparent)
  have hstep : (Edit.step (replaceAllUses · old old) : Edit Store MutationError _) s =
      .done 0 s := Edit.step_done (by rw [replaceAllUses, if_pos rfl])
  have hcount : (Edit.read fun s => .ok (s.uses old).length : Edit Store MutationError Nat) s =
      .done (s.uses old).length s := Edit.read_done rfl
  refine (Edit.bind_done hrebindable).trans ?_
  refine (Edit.bind_done hstep).trans ?_
  refine (Edit.bind_done hcount).trans ?_
  rw [if_pos hread]
  rfl

/-! ## Rebindings that go through -/

/-- **Rebinding a placed operation succeeds**, unless a result that is read is rebound to itself. -/
theorem rebind_done (hs : s.Consistent) (hhoused : s.Housed) (hd : s.ops[o.index]? = some d)
    (hresult : d.result? = some old) (hparent : d.parent? = some b)
    (hself : new = old → s.readCount old = 0) :
    ∃ s', Store.rebind o new s = .done (s.readCount old) s' ∧ s.Rebound b o old new s' := by
  obtain ⟨target, htarget, -⟩ := hhoused o b ((parent?_eq hd).trans hparent)
  have hcount := hs.chains.length_uses old
  by_cases hne : old = new
  · subst hne
    have hzero := hself rfl
    have hunused : s.uses old = [] := List.eq_nil_of_length_eq_zero (hcount.trans hzero)
    have hresult' : ∀ v ∈ d.result?, s.uses v = [] := by
      intro v hv
      rwa [← Option.some.inj (hresult.symm.trans hv)]
    obtain ⟨s₁, s', hunlink, hremove, htaken⟩ := exists_takenOut hs hd hparent htarget hresult'
    refine ⟨s', ?_, htaken.rebound_self old⟩
    rw [hzero]
    exact rebind_of_steps hd hresult hparent (by rw [replaceAllUses, if_pos rfl]) hunused hunlink
      hremove
  · obtain ⟨s', hdone, hrebound⟩ := rebind_eq_done hs hd hresult hparent htarget hne
    exact ⟨s', by rw [hdone, hcount], hrebound⟩

/-! ## Every rebinding -/

/-- **How rebinding ends**, for every operation of a reachable store and every number. It is refused
in three cases, and then changes nothing: the operation has no result, or is not placed, or its own
result, which is read, is to take the place of itself.

In all others it gives the number of slots of the whole store that read the result. After it none
does: the operation has lost its operands, its parent and its place in the list of its block, every
other slot that read the result reads the new value, and all else is as it was. -/
theorem Reachable.rebind_spec (hs : s.Reachable) (hd : s.ops[o.index]? = some d) (new : ValueId) :
    (Store.rebind o new s = .failed (.noResult o) s ↔ d.result? = none) ∧
      (Store.rebind o new s = .failed (.build (.detached o)) s ↔
        d.result?.isSome ∧ d.parent? = none) ∧
      (∀ old k, Store.rebind o new s = .failed (.danglingUses old k) s ↔
        d.result? = some old ∧ d.parent?.isSome ∧ new = old ∧ k = s.readCount old ∧ 0 < k) ∧
      ∀ old b, d.result? = some old → d.parent? = some b → (new = old → s.readCount old = 0) →
        ∃ s', Store.rebind o new s = .done (s.readCount old) s' ∧ s'.readCount old = 0 ∧
          (∀ use, s'.slot? use =
            if use.user = o then none else (s.slot? use).map (ValueId.rename old new)) ∧
          s'.ops[o.index]? = some { d with operands := [], parent? := none } ∧
          (∀ o', o' ≠ o → s'.ops[o'.index]? = s.ops[o'.index]?.map (Operation.rename old new)) ∧
          s'.values = s.values ∧
          (s'.blocks = s.blocks.modify b.index fun e =>
            { e with ops := e.ops.filter (· != o) }) ∧
          s'.ChainsExact := by
  have hconsistent := hs.consistent
  -- one of the four endings comes about, and each excludes the others
  rcases Option.eq_none_or_eq_some d.result? with hresult | ⟨old, hresult⟩
  · rw [rebind_of_result_none hd hresult]
    simp [hresult]
  rcases Option.eq_none_or_eq_some d.parent? with hparent | ⟨b, hparent⟩
  · rw [rebind_of_detached hd hresult hparent]
    simp [hresult, hparent]
  by_cases hself : new = old → s.readCount old = 0
  · obtain ⟨s', hdone, hrebound⟩ := rebind_done hconsistent hs.housed hd hresult hparent hself
    rw [hdone]
    refine ⟨by simp [hresult], by simp [hparent], fun v k => ⟨nofun, ?_⟩, ?_⟩
    · rintro ⟨hv, -, rfl, rfl, hpos⟩
      obtain rfl : old = new := Option.some.inj (hresult.symm.trans hv)
      exact absurd (hself rfl) (Nat.pos_iff_ne_zero.1 hpos)
    · intro v b' hv hb' _
      obtain rfl : old = v := Option.some.inj (hresult.symm.trans hv)
      obtain rfl : b = b' := Option.some.inj (hparent.symm.trans hb')
      exact ⟨s', rfl, hrebound.readCount_old hself, hrebound.slot?, hrebound.entry hd,
        fun o' => hrebound.ops_of_ne, hrebound.owners.values, hrebound.blocks,
        hrebound.consistent.chains⟩
  · obtain ⟨rfl, hread⟩ := Classical.not_imp.1 hself
    have hcount := hconsistent.chains.length_uses new
    have hpos : 0 < s.readCount new := Nat.pos_of_ne_zero hread
    rw [rebind_self_of_read hd hresult hparent (by rwa [hcount]), hcount]
    refine ⟨by simp [hresult], by simp [hparent], fun v k => ⟨?_, ?_⟩, ?_⟩
    · rintro ⟨⟩
      exact ⟨hresult, by simp [hparent], rfl, rfl, hpos⟩
    · rintro ⟨-, -, rfl, rfl, -⟩
      rfl
    · intro v b' hv _ hzero
      obtain rfl : new = v := Option.some.inj (hresult.symm.trans hv)
      exact absurd (hzero rfl) hread

/-- The first operation of the store reads its own result, and is the only one to do so. -/
theorem rebind_spec_loopStore :
    Store.rebind ⟨0⟩ ⟨1⟩ loopStore = .failed (.danglingUses ⟨1⟩ 1) loopStore ∧
      ∃ s', Store.rebind ⟨0⟩ ⟨5⟩ loopStore = .done 1 s' ∧ s'.readCount ⟨1⟩ = 0 ∧
        s'.slot? ⟨⟨0⟩, 1⟩ = none := by
  have hd : loopStore.ops[0]? =
      some ⟨.binary .add, [⟨0⟩, ⟨1⟩], some (.int .w8), some ⟨1⟩, some ⟨0⟩⟩ := rfl
  obtain ⟨-, -, hself, -⟩ := Reachable.rebind_spec reachable_loopStore (o := ⟨0⟩) hd ⟨1⟩
  obtain ⟨-, -, -, hother⟩ := Reachable.rebind_spec reachable_loopStore (o := ⟨0⟩) hd ⟨5⟩
  obtain ⟨s', hdone, hunread, hslot, -⟩ := hother ⟨1⟩ ⟨0⟩ rfl rfl (by decide)
  exact ⟨(hself ⟨1⟩ 1).2 ⟨rfl, rfl, rfl, by decide, by decide⟩, s', hdone, hunread,
    hslot ⟨⟨0⟩, 1⟩⟩

end Mba.Store
