import Mathlib.Data.List.InsertIdx
import Mathlib.Data.List.Nodup
import Mba.Proofs.Store.Reachable

/-!
# Where operations are placed

A block can be created with any operations listed, placed or not, and with some of them listed
twice. Where all blocks are created empty, blocks and operations agree: a block lists each of its
operations once, and each of them is placed in it.

In one direction they agree whatever blocks are created with: an operation that is placed is listed
by its block.

Results:
* `Arranged.step`: changes that create blocks empty keep blocks and operations in agreement.
* `ReachableEmpty.arranged`: so they agree in every store that such changes lead to.
* `Reachable.housed`: in every reachable store, placed operations are listed by their blocks.
-/

namespace Mba.Store

/-- The block in which an operation is placed. -/
def parent? (s : Store) (o : OpId) : Option BlockId :=
  s.ops[o.index]?.bind (·.parent?)

/-- Each block lists operations that are placed in it, and each of them once. -/
structure Arranged (s : Store) : Prop where
  nodup : ∀ (b : BlockId) d, s.blocks[b.index]? = some d → d.ops.Nodup
  parent : ∀ (b : BlockId) d, s.blocks[b.index]? = some d → ∀ o ∈ d.ops, s.parent? o = some b

variable {s s' : Store}

theorem parent?_eq {o : OpId} {d : Operation} (h : s.ops[o.index]? = some d) :
    s.parent? o = d.parent? := by
  rw [parent?, h, Option.bind_some]

theorem arranged_empty : empty.Arranged := by
  constructor <;> simp [empty]

theorem Arranged.congr (h : s.Arranged) (hblocks : s'.blocks = s.blocks)
    (hparent : ∀ o b, s.parent? o = some b → s'.parent? o = some b) : s'.Arranged := by
  constructor
  · intro b d hd
    exact h.nodup b d (hblocks ▸ hd)
  · intro b d hd o ho
    exact hparent o b (h.parent b d (hblocks ▸ hd) o ho)

/-! ## Blocks that are created -/

theorem Arranged.createBlock (h : s.Arranged) (argTys : List Ty) :
    (s.createBlock argTys []).2.Arranged := by
  have hblock : ∀ (b : BlockId) d, (s.createBlock argTys []).2.blocks[b.index]? = some d →
      s.blocks[b.index]? = some d ∨ d.ops = [] := by
    intro b d hd
    simp only [Store.createBlock, Array.getElem?_push] at hd
    split at hd
    · cases hd
      exact .inr rfl
    · exact .inl hd
  constructor
  · intro b d hd
    rcases hblock b d hd with hold | hnew
    · exact h.nodup b d hold
    · rw [hnew]
      exact List.nodup_nil
  · intro b d hd o ho
    rcases hblock b d hd with hold | hnew
    · exact h.parent b d hold o ho
    · rw [hnew] at ho
      cases ho

/-! ## Operations that are placed and taken out -/

theorem parent?_setParent (s : Store) (o o' : OpId) (parent? : Option BlockId) :
    (s.setParent o parent?).parent? o' =
      if o' = o then (s.ops[o.index]?).bind fun _ => parent? else s.parent? o' := by
  obtain ⟨o⟩ := o
  obtain ⟨o'⟩ := o'
  rw [Store.parent?, Store.parent?, getElem?_ops_setParent]
  by_cases heq : o = o'
  · subst heq
    cases s.ops[o]? <;> simp
  · simp [heq, Ne.symm heq]

/-- An operation that is placed nowhere may be placed in any block. -/
theorem Arranged.place (h : s.Arranged) {o : OpId} {d : Operation} {b : BlockId} {target : Block}
    {listing : List OpId} (hd : s.ops[o.index]? = some d) (hparent : d.parent? = none)
    (htarget : s.blocks[b.index]? = some target) (hlisting : listing.Perm (o :: target.ops)) :
    ((s.setParent o (some b)).setBlockOps b listing).Arranged := by
  have hnot : ∀ (b' : BlockId) d', s.blocks[b'.index]? = some d' → o ∉ d'.ops := by
    intro b' d' hd' ho
    have := h.parent b' d' hd' o ho
    rw [parent?_eq hd, hparent] at this
    cases this
  have hplaced : ∀ o', ((s.setParent o (some b)).setBlockOps b listing).parent? o' =
      if o' = o then some b else s.parent? o' := by
    intro o'
    show (s.setParent o (some b)).parent? o' = _
    rw [parent?_setParent, hd, Option.bind_some]
  have hblock : ∀ (b' : BlockId) d',
      ((s.setParent o (some b)).setBlockOps b listing).blocks[b'.index]? = some d' →
      (b' = b ∧ d'.ops = listing) ∨ s.blocks[b'.index]? = some d' := by
    intro b' d' hd'
    rw [getElem?_blocks_setBlockOps] at hd'
    split at hd'
    · next heq =>
      obtain ⟨_, -, rfl⟩ := Option.map_eq_some_iff.1 hd'
      cases b; cases b'
      exact .inl ⟨congrArg BlockId.mk heq.symm, rfl⟩
    · exact .inr hd'
  constructor
  · intro b' d' hd'
    rcases hblock b' d' hd' with ⟨rfl, hops⟩ | hold
    · rw [hops, hlisting.nodup_iff]
      exact List.nodup_cons.2 ⟨hnot b' target htarget, h.nodup b' target htarget⟩
    · exact h.nodup b' d' hold
  · intro b' d' hd' o' ho'
    rw [hplaced]
    rcases hblock b' d' hd' with ⟨rfl, hops⟩ | hold
    · split
      · rfl
      · next hne =>
        rw [hops] at ho'
        exact h.parent b' target htarget o'
          ((List.mem_cons.1 (hlisting.mem_iff.1 ho')).resolve_left hne)
    · rw [if_neg fun heq : o' = o => hnot b' d' hold (heq ▸ ho')]
      exact h.parent b' d' hold o' ho'

theorem Arranged.unlink (h : s.Arranged) {o : OpId} {d : Operation} {b : BlockId} {target : Block}
    (hd : s.ops[o.index]? = some d) (htarget : s.blocks[b.index]? = some target) :
    (if d.parent? = some b then
      (s.setBlockOps b (target.ops.filter (· != o))).setParent o none
    else s.setBlockOps b (target.ops.filter (· != o))).Arranged := by
  have hblock : ∀ (b' : BlockId) d',
      (s.setBlockOps b (target.ops.filter (· != o))).blocks[b'.index]? = some d' →
      ∃ e, s.blocks[b'.index]? = some e ∧ d'.ops.Sublist e.ops ∧ (o ∈ d'.ops → b' ≠ b) := by
    intro b' d' hd'
    rw [getElem?_blocks_setBlockOps] at hd'
    split at hd'
    · next heq =>
      obtain ⟨e, he, rfl⟩ := Option.map_eq_some_iff.1 hd'
      obtain rfl : target = e := Option.some.inj (htarget.symm.trans (heq ▸ he))
      refine ⟨_, he, List.filter_sublist, fun ho => ?_⟩
      simp at ho
    · next hne => exact ⟨d', hd', .refl _, fun _ heq => hne (congrArg BlockId.index heq.symm)⟩
  have hkept : (s.setBlockOps b (target.ops.filter (· != o))).Arranged := by
    constructor
    · intro b' d' hd'
      obtain ⟨e, he, hsub, -⟩ := hblock b' d' hd'
      exact (h.nodup b' e he).sublist hsub
    · intro b' d' hd' o' ho'
      obtain ⟨e, he, hsub, -⟩ := hblock b' d' hd'
      exact h.parent b' e he o' (hsub.subset ho')
  split
  · next hparent =>
    constructor
    · exact hkept.nodup
    · intro b' d' hd' o' ho'
      obtain ⟨e, he, hsub, hne⟩ := hblock b' d' hd'
      have hold := h.parent b' e he o' (hsub.subset ho')
      rw [parent?_setParent]
      split
      · next heq =>
        -- the operation is placed in `b` alone, which does not list it any more
        subst heq
        rw [parent?_eq hd, hparent] at hold
        exact absurd (Option.some.inj hold).symm (hne ho')
      · exact hold
  · exact hkept

/-! ## Reachable stores -/

/-- A block that the change creates is empty. -/
def Change.CreatesEmpty : Change → Prop
  | .createBlock _ ops => ops = []
  | .createOp _ | .pushOp _ _ | .insertOpBefore _ _ _ | .unlinkOp _ _ | .removeOp _
  | .replaceAllUses _ _ => True

instance (change : Change) : Decidable change.CreatesEmpty := by
  cases change <;> unfold Change.CreatesEmpty <;> infer_instance

/-- The stores that changes lead to from the empty one, where all blocks are created empty. -/
inductive ReachableEmpty : Store → Prop
  | empty : ReachableEmpty empty
  | step {s s' : Store} (change : Change) (hempty : change.CreatesEmpty) :
      ReachableEmpty s → change.apply s = .ok s' → ReachableEmpty s'

theorem ReachableEmpty.reachable (h : ReachableEmpty s) : s.Reachable := by
  induction h with
  | empty => exact .empty
  | step change _ _ hstep ih => exact ih.step change hstep

/-- **Changes that create blocks empty** keep blocks and operations in agreement. -/
theorem Arranged.step (h : s.Arranged) (hs : s.Consistent) {change : Change}
    (hempty : change.CreatesEmpty) (hstep : change.apply s = .ok s') : s'.Arranged := by
  cases change with
  | createBlock argTys ops =>
    obtain rfl : ops = [] := hempty
    cases hstep
    exact h.createBlock argTys
  | createOp draft =>
    obtain ⟨⟨o, s'⟩, hok, rfl⟩ := map_eq_ok.1 hstep
    obtain ⟨-, hcreated⟩ := createOp_ok hok
    refine h.congr hcreated.blocks fun o b hparent => ?_
    obtain ⟨d, hd, -⟩ := Option.bind_eq_some_iff.1 hparent
    have hlt := (Array.getElem?_eq_some_iff.1 hd).1
    rw [parent?, hcreated.ops, Array.getElem?_push, if_neg (by omega)]
    exact hparent
  | pushOp b o =>
    obtain ⟨d, target, hd, hparent, htarget, rfl⟩ := pushOp_ok hstep
    exact h.place hd hparent htarget (List.perm_append_singleton o target.ops)
  | insertOpBefore b before o =>
    obtain ⟨d, target, place, hd, hparent, htarget, hplace, rfl⟩ := insertOpBefore_ok hstep
    have hle : place ≤ target.ops.length := by
      obtain ⟨hlt, -⟩ := List.idxOf?_eq_some_iff.1 hplace
      omega
    exact h.place hd hparent htarget (List.perm_insertIdx o target.ops hle)
  | unlinkOp b o =>
    obtain ⟨d, target, hd, htarget, rfl⟩ := unlinkOp_ok hstep
    exact h.unlink hd htarget
  | removeOp o =>
    obtain ⟨d, -, -, -, rfl⟩ := removeOp_ok hstep
    refine h.congr (blocks_dropOperands _ _ _) fun o' b hparent => ?_
    rw [← hparent, parent?, ops_dropOperands]
    exact bind_modify _ _ _ fun _ => rfl
  | replaceAllUses old new =>
    obtain ⟨⟨n, s'⟩, hok, rfl⟩ := map_eq_ok.1 hstep
    obtain rfl := replaceAllUses_ok hs.chains hok
    split
    · exact h
    · refine h.congr rfl fun o b hparent => ?_
      show (s.ops.map _)[o.index]?.bind _ = _
      rw [Array.getElem?_map, ← hparent, parent?]
      cases s.ops[o.index]? <;> rfl

/-- **Blocks and operations agree** in every store that such changes lead to. -/
theorem ReachableEmpty.arranged (h : ReachableEmpty s) : s.Arranged := by
  induction h with
  | empty => exact arranged_empty
  | step change hempty hbefore hstep ih =>
    exact ih.step hbefore.reachable.consistent hempty hstep

theorem ReachableEmpty.foldlM {changes : List Change} (h : ReachableEmpty s)
    (hempty : ∀ change ∈ changes, change.CreatesEmpty)
    (hs : changes.foldlM Change.apply s = .ok s') : ReachableEmpty s' := by
  induction changes generalizing s with
  | nil =>
    cases hs
    exact h
  | cons change rest ih =>
    obtain ⟨s₁, hstep, hrest⟩ := bind_eq_ok.1 hs
    exact ih (h.step change (hempty change List.mem_cons_self) hstep)
      (fun change' hmem => hempty change' (List.mem_cons_of_mem _ hmem)) hrest

/-! ## Operations are listed where they are placed -/

/-- Every operation that is placed is listed by its block, which exists. -/
def Housed (s : Store) : Prop :=
  ∀ o b, s.parent? o = some b → ∃ d, s.blocks[b.index]? = some d ∧ o ∈ d.ops

/-- Placed operations stay listed where blocks only lose operations that are placed there no more,
and only gain parents that list them. -/
theorem Housed.change (h : s.Housed)
    (hblocks : ∀ (b : BlockId) d, s.blocks[b.index]? = some d → ∃ d', s'.blocks[b.index]? = some d' ∧
      ∀ o ∈ d.ops, s'.parent? o = some b → o ∈ d'.ops)
    (hparent : ∀ o b, s'.parent? o = some b → s.parent? o = some b ∨
      ∃ d', s'.blocks[b.index]? = some d' ∧ o ∈ d'.ops) : s'.Housed := by
  intro o b hplaced
  rcases hparent o b hplaced with hold | hnew
  · obtain ⟨d, hd, hmem⟩ := h o b hold
    obtain ⟨d', hd', hkept⟩ := hblocks b d hd
    exact ⟨d', hd', hkept o hmem hplaced⟩
  · exact hnew

theorem Housed.congr (h : s.Housed) (hblocks : s'.blocks = s.blocks)
    (hparent : ∀ o, s'.parent? o = s.parent? o) : s'.Housed :=
  h.change (fun _ d hd => ⟨d, hblocks ▸ hd, fun _ ho _ => ho⟩)
    fun o _ hplaced => .inl (hparent o ▸ hplaced)

/-- Placing an operation in a block, which lists it and what it listed before. -/
theorem Housed.place (h : s.Housed) {o : OpId} {b : BlockId} {target : Block} {listing : List OpId}
    (htarget : s.blocks[b.index]? = some target) (hmem : o ∈ listing)
    (hsub : ∀ o' ∈ target.ops, o' ∈ listing) :
    ((s.setParent o (some b)).setBlockOps b listing).Housed := by
  have hblock : ∀ i, ((s.setParent o (some b)).setBlockOps b listing).blocks[i]? =
      if b.index = i then s.blocks[i]?.map fun d => { d with ops := listing } else s.blocks[i]? :=
    getElem?_blocks_setBlockOps _ _ _
  refine h.change (fun b' d hd => ?_) fun o' b' hplaced => ?_
  · rw [hblock]
    split
    · next heq =>
      obtain rfl : target = d := Option.some.inj (htarget.symm.trans (heq ▸ hd))
      exact ⟨_, by rw [hd]; rfl, fun o' ho' _ => hsub o' ho'⟩
    · exact ⟨d, hd, fun _ ho' _ => ho'⟩
  · change (s.setParent o (some b)).parent? o' = some b' at hplaced
    rw [parent?_setParent] at hplaced
    split at hplaced
    · next heq =>
      obtain ⟨_, -, hb⟩ := Option.bind_eq_some_iff.1 hplaced
      obtain rfl := Option.some.inj hb
      exact .inr ⟨_, by rw [hblock, if_pos rfl, htarget]; rfl, heq ▸ hmem⟩
    · exact .inl hplaced

/-- Taking an operation out of a block, where it is placed no more. -/
theorem Housed.unlink (h : s.Housed) {o : OpId} {d : Operation} {b : BlockId} {target : Block}
    (hd : s.ops[o.index]? = some d) (htarget : s.blocks[b.index]? = some target) :
    (if d.parent? = some b then
      (s.setBlockOps b (target.ops.filter (· != o))).setParent o none
    else s.setBlockOps b (target.ops.filter (· != o))).Housed := by
  -- whichever it is: the list of the block loses the operation, and no operation gains a parent
  suffices hkept : ∀ s' : Store,
      s'.blocks = (s.setBlockOps b (target.ops.filter (· != o))).blocks →
      (∀ o' b', s'.parent? o' = some b' → s.parent? o' = some b') → s'.parent? o ≠ some b →
      s'.Housed by
    split
    · refine hkept _ rfl (fun o' b' hplaced => ?_) ?_
      · rw [parent?_setParent] at hplaced
        split at hplaced
        · obtain ⟨_, -, hnone⟩ := Option.bind_eq_some_iff.1 hplaced
          cases hnone
        · exact hplaced
      · rw [parent?_setParent, if_pos rfl]
        simp
    · next hne =>
      refine hkept _ rfl (fun _ _ hplaced => hplaced) ?_
      change s.parent? o ≠ some b
      rwa [parent?_eq hd]
  intro s' hblocks hparent hout
  refine h.change (fun b' e he => ?_) fun o' b' hplaced => .inl (hparent o' b' hplaced)
  rw [hblocks, getElem?_blocks_setBlockOps]
  split
  · next heq =>
    obtain rfl : b = b' := congrArg BlockId.mk heq
    obtain rfl : target = e := Option.some.inj (htarget.symm.trans he)
    refine ⟨_, by rw [he]; rfl, fun o' ho' hplaced => ?_⟩
    refine List.mem_filter.2 ⟨ho', bne_iff_ne.2 fun heq => hout ?_⟩
    rw [← heq, hplaced]
  · exact ⟨e, he, fun _ ho' _ => ho'⟩

/-- **Every change keeps placed operations listed.** -/
theorem Housed.step (h : s.Housed) (hs : s.Consistent) {change : Change}
    (hstep : change.apply s = .ok s') : s'.Housed := by
  cases change with
  | createBlock argTys ops =>
    cases hstep
    refine h.change (fun b d hd => ⟨d, ?_, fun _ ho _ => ho⟩) fun _ _ hplaced => .inl hplaced
    have hlt := (Array.getElem?_eq_some_iff.1 hd).1
    simp only [Store.createBlock, Array.getElem?_push, if_neg (Nat.ne_of_lt hlt), hd]
  | createOp draft =>
    obtain ⟨⟨o, s'⟩, hok, rfl⟩ := map_eq_ok.1 hstep
    obtain ⟨-, hcreated⟩ := createOp_ok hok
    refine h.change (fun b d hd => ⟨d, hcreated.blocks ▸ hd, fun _ ho _ => ho⟩) fun o b hplaced => ?_
    have hplaced : s'.ops[o.index]?.bind (·.parent?) = some b := hplaced
    rw [hcreated.bind_ops] at hplaced
    split at hplaced
    · cases hplaced
    · exact .inl hplaced
  | pushOp b o =>
    obtain ⟨d, target, -, -, htarget, rfl⟩ := pushOp_ok hstep
    exact h.place htarget (by simp) fun o' ho' => List.mem_append_left _ ho'
  | insertOpBefore b before o =>
    obtain ⟨d, target, place, -, -, htarget, hplace, rfl⟩ := insertOpBefore_ok hstep
    have hle : place ≤ target.ops.length := by
      obtain ⟨hlt, -⟩ := List.idxOf?_eq_some_iff.1 hplace
      omega
    have hmem : ∀ o', o' ∈ target.ops.insertIdx place o ↔ o' = o ∨ o' ∈ target.ops := fun o' =>
      (List.perm_insertIdx o target.ops hle).mem_iff.trans List.mem_cons
    exact h.place htarget ((hmem o).2 (.inl rfl)) fun o' ho' => (hmem o').2 (.inr ho')
  | unlinkOp b o =>
    obtain ⟨d, target, hd, htarget, rfl⟩ := unlinkOp_ok hstep
    exact h.unlink hd htarget
  | removeOp o =>
    obtain ⟨d, -, -, -, rfl⟩ := removeOp_ok hstep
    refine h.congr (blocks_dropOperands _ _ _) fun o' => ?_
    rw [parent?, ops_dropOperands]
    exact bind_modify _ _ _ fun _ => rfl
  | replaceAllUses old new =>
    obtain ⟨⟨n, s'⟩, hok, rfl⟩ := map_eq_ok.1 hstep
    obtain rfl := replaceAllUses_ok hs.chains hok
    split
    · exact h
    · refine h.congr rfl fun o => ?_
      show (s.ops.map _)[o.index]?.bind _ = _
      rw [Array.getElem?_map, parent?]
      cases s.ops[o.index]? <;> rfl

/-- **Placed operations are listed** in every reachable store, whatever blocks are created with. -/
theorem Reachable.housed (h : s.Reachable) : s.Housed := by
  induction h with
  | empty => exact fun o b hplaced => by simp [parent?, Store.empty] at hplaced
  | step change hbefore hstep ih => exact ih.step hbefore.consistent hstep

end Mba.Store
