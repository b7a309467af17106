import Mathlib.Data.List.Forall2
import Mathlib.Logic.Relation
import Mba.Proofs.Building
import Mba.Proofs.Store.Placement

/-!
# Runs of changes

What one change does to the entries of a store, and what is left of it after many. An operation that
exists keeps its opcode. It keeps its operands too, unless it is removed or one of them is
redirected. A value that exists keeps its entry.

So the number of a value is read by operations that read it before, by those that are created with
it among their operands, and by those that are redirected to it. A change is *careful* if it hands
over no number in this way that no value has yet, and creates blocks empty.

Results:
* `op_of_apply`: where the operations after a change come from.
* `slot?_of_apply`: a slot that reads a value after a change has read it before, or the change names
  it.
* `within_of_apply`, `Run.within`: no entry goes away.
* `Run.slot?_of_redirects`: where nothing is redirected to a value, operations that exist do not
  come to read it.
* `Run.operandsAllocated`: careful changes keep all operands values.
* `Run.exists_allocates`: a value that a run leaves and has not found was allocated by one of its
  changes.
-/

namespace Mba.Store

/-! ## Changes that name values -/

/-- The change hands over the number of `v`, as an operand of a new operation or for the operands
that it redirects. -/
def Change.Names (v : ValueId) : Change → Prop
  | .createOp draft => v ∈ draft.operands
  | .replaceAllUses _ new => new = v
  | .createBlock _ _ | .pushOp _ _ | .insertOpBefore _ _ _ | .unlinkOp _ _ | .removeOp _ => False

/-- The change redirects operands to `v`. -/
def Change.Redirects (v : ValueId) : Change → Prop
  | .replaceAllUses _ new => new = v
  | .createBlock _ _ | .createOp _ | .pushOp _ _ | .insertOpBefore _ _ _ | .unlinkOp _ _
  | .removeOp _ => False

/-- The change names values only, and creates blocks empty. -/
structure Change.Careful (s : Store) (change : Change) : Prop where
  createsEmpty : change.CreatesEmpty
  allocated : ∀ v, change.Names v → s.isAllocated v = true

/-- The change is careful and redirects nothing. -/
structure Change.Growing (s : Store) (change : Change) : Prop extends change.Careful s where
  redirects : ∀ v, ¬ change.Redirects v

variable {s s' s'' : Store} {change : Change} {v : ValueId} {use : Use}

theorem Change.Redirects.names (h : change.Redirects v) : change.Names v := by
  cases change with
  | replaceAllUses old new => exact h
  | _ => exact h.elim

/-! ## One change -/

/-- What a change makes of an operation that exists. -/
structure Change.Keeps (change : Change) (d d' : Operation) : Prop where
  opcode : d'.opcode = d.opcode
  result? : d'.result? = d.result?
  operands : d'.operands = [] ∨
    d.operands.Forall₂ (fun v v' => v' = v ∨ change.Redirects v') d'.operands

theorem Change.Keeps.setParent (d : Operation) (parent? : Option BlockId) :
    change.Keeps d { d with parent? } :=
  ⟨rfl, rfl, .inr (List.forall₂_same.2 fun _ _ => .inl rfl)⟩

theorem Change.Keeps.refl (d : Operation) : change.Keeps d d :=
  .setParent d d.parent?

/-- A slot of an operation that exists reads what it has read before, or what it is redirected
to. -/
theorem Change.Keeps.operand {d d' : Operation} (h : change.Keeps d d') {i : Nat}
    (hread : d'.operands[i]? = some v) : d.operands[i]? = some v ∨ change.Redirects v := by
  rcases h.operands with hnil | hall
  · rw [hnil] at hread
    cases hread
  · obtain ⟨hlength, hget⟩ := List.forall₂_iff_get.1 hall
    obtain ⟨hi, rfl⟩ := List.getElem?_eq_some_iff.1 hread
    refine (hget i (hlength ▸ hi) hi).imp_left fun heq => ?_
    exact List.getElem?_eq_some_iff.2 ⟨hlength ▸ hi, heq.symm⟩

/-- **Where the operations after a change come from.** -/
theorem op_of_apply (hs : s.Consistent) (h : change.apply s = .ok s') {i : Nat} {d' : Operation}
    (hd' : s'.ops[i]? = some d') : (∃ d, s.ops[i]? = some d ∧ change.Keeps d d') ∨
      i = s.ops.size ∧ ∃ draft, change = .createOp draft ∧ d' = draft.operation s := by
  have hplaced : ∀ {o : OpId} {parent? : Option BlockId},
      (s.setParent o parent?).ops[i]? = some d' → ∃ d, s.ops[i]? = some d ∧ change.Keeps d d' := by
    intro o parent? hset
    rw [getElem?_ops_setParent] at hset
    split at hset
    · obtain ⟨d, hd, rfl⟩ := Option.map_eq_some_iff.1 hset
      exact ⟨d, hd, .setParent d _⟩
    · exact ⟨d', hset, .refl d'⟩
  cases change with
  | createBlock argTys ops =>
    cases h
    exact .inl ⟨d', hd', .refl d'⟩
  | createOp draft =>
    obtain ⟨⟨o, s'⟩, hok, rfl⟩ := map_eq_ok.1 h
    obtain ⟨-, hcreated⟩ := createOp_ok hok
    rw [hcreated.ops, Array.getElem?_push] at hd'
    split at hd'
    · next heq =>
      cases hd'
      exact .inr ⟨heq, draft, rfl, rfl⟩
    · exact .inl ⟨d', hd', .refl d'⟩
  | pushOp b o =>
    obtain ⟨-, target, -, -, -, rfl⟩ := pushOp_ok h
    exact .inl (hplaced hd')
  | insertOpBefore b before o =>
    obtain ⟨-, target, place, -, -, -, -, rfl⟩ := insertOpBefore_ok h
    exact .inl (hplaced hd')
  | unlinkOp b o =>
    obtain ⟨d, target, -, -, rfl⟩ := unlinkOp_ok h
    split at hd'
    · exact .inl (hplaced hd')
    · exact .inl ⟨d', hd', .refl d'⟩
  | removeOp o =>
    obtain ⟨d, -, -, -, rfl⟩ := removeOp_ok h
    rw [ops_dropOperands, Array.getElem?_modify] at hd'
    split at hd'
    · obtain ⟨d, hd, rfl⟩ := Option.map_eq_some_iff.1 hd'
      exact .inl ⟨d, hd, rfl, rfl, .inl rfl⟩
    · exact .inl ⟨d', hd', .refl d'⟩
  | replaceAllUses old new =>
    obtain ⟨⟨n, s'⟩, hok, rfl⟩ := map_eq_ok.1 h
    obtain rfl := replaceAllUses_ok hs.chains hok
    split at hd'
    · exact .inl ⟨d', hd', .refl d'⟩
    · change (s.ops.map _)[i]? = some d' at hd'
      rw [Array.getElem?_map] at hd'
      obtain ⟨d, hd, rfl⟩ := Option.map_eq_some_iff.1 hd'
      refine .inl ⟨d, hd, rfl, rfl, .inr ?_⟩
      refine List.forall₂_map_right_iff.2 (List.forall₂_same.2 fun v _ => ?_)
      unfold ValueId.rename
      split
      · exact .inr rfl
      · exact .inl rfl

/-- **A slot that reads a value after a change** has read it before, or is redirected to it, or is
one of a new operation that has it among its operands. -/
theorem slot?_of_apply (hs : s.Consistent) (h : change.apply s = .ok s')
    (hread : s'.slot? use = some v) : s.slot? use = some v ∨ change.Redirects v ∨
      change.Names v ∧ use.user.index = s.ops.size := by
  obtain ⟨d', hd', hoperand⟩ := Option.bind_eq_some_iff.1 hread
  rcases op_of_apply hs h hd' with ⟨d, hd, hkeeps⟩ | ⟨heq, draft, rfl, rfl⟩
  · rcases hkeeps.operand hoperand with hold | hredirects
    · exact .inl (Option.bind_eq_some_iff.2 ⟨d, hd, hold⟩)
    · exact .inr (.inl hredirects)
  · exact .inr (.inr ⟨List.mem_of_getElem? hoperand, heq⟩)

/-- No entry of `s` is missing in `s'`, and those of values are the same there. -/
structure Within (s s' : Store) : Prop where
  ops : s.ops.size ≤ s'.ops.size
  blocks : s.blocks.size ≤ s'.blocks.size
  values : ∀ (i : Nat) value, s.values[i]? = some value → s'.values[i]? = some value

theorem Within.refl (s : Store) : s.Within s :=
  ⟨Nat.le_refl _, Nat.le_refl _, fun _ _ h => h⟩

theorem Within.trans (h : s.Within s') (h' : s'.Within s'') : s.Within s'' where
  ops := Nat.le_trans h.ops h'.ops
  blocks := Nat.le_trans h.blocks h'.blocks
  values i value hvalue := h'.values i value (h.values i value hvalue)

theorem Within.isAllocated (h : s.Within s') (hv : s.isAllocated v = true) :
    s'.isAllocated v = true :=
  isAllocated_of_some (h.values _ _ (Array.getElem?_eq_getElem (of_decide_eq_true hv)))

theorem within_setParent (s : Store) (o : OpId) (parent? : Option BlockId) :
    s.Within (s.setParent o parent?) :=
  ⟨by simp [setParent], Nat.le_refl _, fun _ _ h => h⟩

theorem within_setBlockOps (s : Store) (b : BlockId) (ops : List OpId) :
    s.Within (s.setBlockOps b ops) :=
  ⟨Nat.le_refl _, by simp [setBlockOps], fun _ _ h => h⟩

/-- **A change takes no entry away.** -/
theorem within_of_apply (hs : s.Consistent) (h : change.apply s = .ok s') : s.Within s' := by
  cases change with
  | createBlock argTys ops =>
    cases h
    refine ⟨Nat.le_refl _, by simp [Store.createBlock], fun i value hvalue => ?_⟩
    rw [getElem?_values_createBlock, if_pos (Array.getElem?_eq_some_iff.1 hvalue).1, hvalue]
  | createOp draft =>
    obtain ⟨⟨o, s'⟩, hok, rfl⟩ := map_eq_ok.1 h
    obtain ⟨-, hcreated⟩ := createOp_ok hok
    refine ⟨by simp [hcreated.ops], by simp [hcreated.blocks], fun i value hvalue => ?_⟩
    have hlt := (Array.getElem?_eq_some_iff.1 hvalue).1
    rw [hcreated.getElem?_values, if_neg (Nat.ne_of_lt hlt), hvalue]
  | pushOp b o =>
    obtain ⟨-, target, -, -, -, rfl⟩ := pushOp_ok h
    exact (within_setParent _ _ _).trans (within_setBlockOps _ _ _)
  | insertOpBefore b before o =>
    obtain ⟨-, target, place, -, -, -, -, rfl⟩ := insertOpBefore_ok h
    exact (within_setBlockOps _ _ _).trans (within_setParent _ _ _)
  | unlinkOp b o =>
    obtain ⟨d, target, -, -, rfl⟩ := unlinkOp_ok h
    split
    · exact (within_setBlockOps _ _ _).trans (within_setParent _ _ _)
    · exact within_setBlockOps _ _ _
  | removeOp o =>
    obtain ⟨d, -, -, -, rfl⟩ := removeOp_ok h
    refine ⟨by simp [ops_dropOperands], by simp [blocks_dropOperands], fun i value hvalue => ?_⟩
    rwa [(sameOwners_dropOperands s o d.operands).values]
  | replaceAllUses old new =>
    obtain ⟨⟨n, s'⟩, hok, rfl⟩ := map_eq_ok.1 h
    obtain rfl := replaceAllUses_ok hs.chains hok
    split
    · exact .refl s
    · exact ⟨by simp [renameUses], Nat.le_refl _, fun _ _ h => h⟩

/-! ## Runs -/

/-- The stores that changes lead to from `s`, each of them allowed where it is made. -/
inductive Run (allowed : Store → Change → Prop) (s : Store) : Store → Prop
  | refl : Run allowed s s
  | step {s' s'' : Store} (change : Change) (h : Run allowed s s') (hallowed : allowed s' change)
      (hstep : change.apply s' = .ok s'') : Run allowed s s''

/-- A change allocates the value `v`. -/
structure Allocates (s : Store) (v : ValueId) (s' : Store) : Prop where
  change : ∃ change : Change, change.apply s = .ok s'
  before : s.isAllocated v = false
  after : s'.isAllocated v = true

namespace Run

variable {allowed allowed' : Store → Change → Prop}

theorem single (change : Change) (hallowed : allowed s change) (hstep : change.apply s = .ok s') :
    Run allowed s s' :=
  .step change .refl hallowed hstep

theorem trans (h : Run allowed s s') (h' : Run allowed s' s'') : Run allowed s s'' := by
  induction h' with
  | refl => exact h
  | step change _ hallowed hstep ih => exact ih.step change hallowed hstep

theorem mono (h : Run allowed s s') (hallowed : ∀ t change, allowed t change → allowed' t change) :
    Run allowed' s s' := by
  induction h with
  | refl => exact .refl
  | step change _ hchange hstep ih => exact ih.step change (hallowed _ _ hchange) hstep

theorem reachable (h : Run allowed s s') (hs : s.Reachable) : s'.Reachable := by
  induction h with
  | refl => exact hs
  | step change _ _ hstep ih => exact ih.step change hstep

theorem reachableEmpty (h : Run Change.Careful s s') (hs : s.ReachableEmpty) : s'.ReachableEmpty := by
  induction h with
  | refl => exact hs
  | step change _ hcareful hstep ih => exact ih.step change hcareful.createsEmpty hstep

theorem consistent (h : Run allowed s s') (hs : s.Consistent) : s'.Consistent := by
  induction h with
  | refl => exact hs
  | step change _ _ hstep ih => exact ih.step hstep

/-- **A run takes no entry away.** -/
theorem within (h : Run allowed s s') (hs : s.Consistent) : s.Within s' := by
  induction h with
  | refl => exact .refl s
  | step change h _ hstep ih => exact ih.trans (within_of_apply (h.consistent hs) hstep)

/-- **Where nothing is redirected to a value**, operations that exist do not come to read it. -/
theorem slot?_of_redirects (h : Run (fun _ change => ¬ change.Redirects v) s s') (hs : s.Consistent)
    (hlt : use.user.index < s.ops.size) (hread : s'.slot? use = some v) : s.slot? use = some v := by
  induction h with
  | refl => exact hread
  | step change h hkept hstep ih =>
    have hle := (h.within hs).ops
    rcases slot?_of_apply (h.consistent hs) hstep hread with hold | hredirects | ⟨-, heq⟩
    · exact ih hold
    · exact absurd hredirects hkept
    · omega

/-- A number that no change names is read by nothing that has not read it before. -/
theorem slot?_of_names (h : Run (fun _ change => ¬ change.Names v) s s') (hs : s.Consistent)
    (hread : s'.slot? use = some v) : s.slot? use = some v := by
  induction h with
  | refl => exact hread
  | step change h hkept hstep ih =>
    rcases slot?_of_apply (h.consistent hs) hstep hread with hold | hredirects | ⟨hnames, -⟩
    · exact ih hold
    · exact absurd hredirects.names hkept
    · exact absurd hnames hkept

/-- **Careful changes keep all operands values.** -/
theorem operandsAllocated (h : Run Change.Careful s s') (hs : s.Consistent)
    (ha : s.OperandsAllocated) : s'.OperandsAllocated := by
  induction h with
  | refl => exact ha
  | step change h hcareful hstep ih =>
    have hin := within_of_apply (h.consistent hs) hstep
    intro use v hread
    rcases slot?_of_apply (h.consistent hs) hstep hread with hold | hredirects | ⟨hnames, -⟩
    · exact hin.isAllocated (ih use v hold)
    · exact hin.isAllocated (hcareful.allocated v hredirects.names)
    · exact hin.isAllocated (hcareful.allocated v hnames)

/-- **A value that a run leaves and has not found** was allocated by one of its changes. -/
theorem exists_allocates (h : Run allowed s s') (hbefore : s.isAllocated v = false)
    (hafter : s'.isAllocated v = true) :
    ∃ t t', Run allowed s t ∧ t.Allocates v t' ∧ Run allowed t' s' := by
  induction h with
  | refl =>
    rw [hbefore] at hafter
    cases hafter
  | @step t t' change h hallowed hstep ih =>
    cases hfound : t.isAllocated v with
    | false => exact ⟨t, t', h, ⟨⟨change, hstep⟩, hfound, hafter⟩, .refl⟩
    | true =>
      obtain ⟨u, u', hu, hallocates, hu'⟩ := ih hfound
      exact ⟨u, u', hu, hallocates, hu'.step change hallowed hstep⟩

end Run

/-- A result is allocated when its operation is created. -/
theorem Allocates.index_eq (h : s.Allocates v s') (hs : s.Consistent) {o : OpId}
    (hresult : s'.result? o = some v) : o.index = s.ops.size := by
  obtain ⟨change, hstep⟩ := h.change
  obtain ⟨d', hd', hv⟩ := Option.bind_eq_some_iff.1 hresult
  rcases op_of_apply hs hstep hd' with ⟨d, hd, hkeeps⟩ | ⟨heq, -⟩
  · have hold : s.result? o = some v := (result?_eq hd).trans (hkeeps.result? ▸ hv)
    have hfound := hs.owned.isAllocated_of_result? hold
    rw [h.before] at hfound
    cases hfound
  · exact heq

/-- The operation that defines a value defines it as long as there is a value. -/
theorem Run.result?_of_allocated {allowed : Store → Change → Prop} (h : Run allowed s s')
    (hs : s.Consistent) (hv : s.isAllocated v = true) {o : OpId} (hresult : s'.result? o = some v) :
    s.result? o = some v := by
  obtain ⟨ty, -, hvalue'⟩ := (h.consistent hs).owned.result_origin o v hresult
  have hvalue := Array.getElem?_eq_getElem (of_decide_eq_true hv)
  rw [(h.within hs).values _ _ hvalue, ← hvalue] at hvalue'
  exact hs.owned.origin_result o v ty hvalue'

end Mba.Store
