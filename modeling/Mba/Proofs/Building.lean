import Mathlib.Data.List.Basic
import Mba.Proofs.Program.Valid

/-!
# Building operations

What a call of a builder does that passes the checks of types: one operation is created at the place
of the builder, and everything else is left as it was.

Results:
* `Flow.rename`: operations still flow when values are renamed in their operands and some of them
  are left out, as long as every renamed value is known where it is read.
* `Builder.emit_eq_done`, `Builder.emitValue_eq_done`: emitting succeeds at a place that exists.
* `Builder.emitted_of_emit`, `Builder.emitted_of_emitValue`: what emitting has done.
* `Builder.int_done`, `Builder.unary_done`, `Builder.binary_done`: a call that is done has passed
  the checks of types and emitted an operation.
* `Emitted.flow`, `Emitted.fits`: the operations that were there flow on, and a well-typed new one
  fits behind those that define what it reads.
* `Built.emitted`: a program under construction stays in order when a well-typed operation is
  emitted at its end.
-/

namespace Mba

namespace Store

/-- Every operand of every operation is a value. -/
def OperandsAllocated (s : Store) : Prop :=
  ∀ use v, s.slot? use = some v → s.isAllocated v = true

variable {s s' : Store} {p : Program}

theorem OperandsAllocated.of_mem (hs : s.OperandsAllocated) {o : OpId} {d : Operation}
    (hd : s.ops[o.index]? = some d) {v : ValueId} (hv : v ∈ d.operands) :
    s.isAllocated v = true := by
  obtain ⟨i, hi⟩ := List.getElem?_of_mem hv
  refine hs ⟨o, i⟩ v ?_
  rw [slot?, hd]
  exact hi

theorem operandsAllocated_iff :
    s.OperandsAllocated ↔ ∀ d ∈ s.ops, ∀ v ∈ d.operands, s.isAllocated v = true := by
  constructor
  · intro hs d hd v hv
    obtain ⟨i, hi⟩ := Array.getElem?_of_mem hd
    exact hs.of_mem (o := ⟨i⟩) hi hv
  · intro h use v hread
    obtain ⟨d, hd, hv⟩ := Option.bind_eq_some_iff.1 hread
    exact h d (Array.mem_of_getElem? hd) v (List.mem_of_getElem? hv)

instance : Decidable s.OperandsAllocated := decidable_of_iff _ operandsAllocated_iff.symm

/-! ## Operations under other names -/

/-- The types of an operation are in order where its renamed operands have the same types. -/
theorem typeDefect?_rename (d : Operation) (ρ : ValueId → ValueId)
    (h : ∀ v ∈ d.operands,
      s'.values[(ρ v).index]?.map (·.ty) = s.values[v.index]?.map (·.ty)) :
    s'.typeDefect? { d with operands := d.operands.map ρ } = s.typeDefect? d := by
  have htys : s'.operandTys (d.operands.map ρ) = s.operandTys d.operands := by
    rw [operandTys, operandTys, List.filterMap_map]
    exact List.filterMap_congr fun v hv => h v hv
  simp only [typeDefect?, htys, List.length_map]

/-- **Operations flow under other names.** The operations that `keep` leaves out must define values
whose new names are known already. -/
theorem Flow.rename (ρ : ValueId → ValueId) (keep : OpId → Bool) {done done' ops : List OpId}
    (hs : s.Owned)
    (hty : ∀ v, s.isAllocated v = true →
      s'.values[(ρ v).index]?.map (·.ty) = s.values[v.index]?.map (·.ty))
    (hops : ∀ o ∈ ops, keep o = true → ∀ d, s.ops[o.index]? = some d →
      s'.ops[o.index]? = some { d with operands := d.operands.map ρ })
    (hkept : ∀ o ∈ ops, keep o = true → ∀ v, s.result? o = some v → ρ v = v)
    (hdropped : ∀ o ∈ ops, keep o = false → ∀ v, s.result? o = some v → s'.Defines p done' (ρ v))
    (hdone : ∀ v, s.Defines p done v → s'.Defines p done' (ρ v)) (h : s.Flow p done ops) :
    s'.Flow p done' (ops.filter keep) := by
  induction ops generalizing done done' with
  | nil => trivial
  | cons o rest ih =>
    obtain ⟨⟨d, hd, hfits⟩, hrest⟩ := h
    have hops' := fun o' ho' => hops o' (List.mem_cons_of_mem _ ho')
    have hkept' := fun o' ho' => hkept o' (List.mem_cons_of_mem _ ho')
    have hdropped' := fun o' ho' => hdropped o' (List.mem_cons_of_mem _ ho')
    cases hkeep : keep o with
    | true =>
      have hd' := hops o List.mem_cons_self hkeep d hd
      rw [List.filter_cons_of_pos hkeep]
      refine ⟨⟨_, hd', hfits.parent, ?_, ?_⟩, ih hops' hkept' ?_ ?_ hrest⟩
      · intro v' hv'
        obtain ⟨v, hv, rfl⟩ := List.mem_map.1 hv'
        exact hdone v (hfits.operands v hv)
      · rw [typeDefect?_rename d ρ fun v hv => hty v ((hfits.operands v hv).isAllocated hs),
          hfits.typed]
      · intro o' ho' hdrop v hv
        exact (hdropped' o' ho' hdrop v hv).mono fun _ => List.mem_append_left _
      · intro v hv
        rw [defines_append_singleton] at hv ⊢
        rcases hv with hold | hnew
        · exact .inl (hdone v hold)
        · refine .inr ?_
          rw [hkept o List.mem_cons_self hkeep v hnew, result?, hd']
          rwa [result?, hd] at hnew
    | false =>
      rw [List.filter_cons_of_neg (by simp [hkeep])]
      refine ih hops' hkept' hdropped' ?_ hrest
      intro v hv
      rcases defines_append_singleton.1 hv with hold | hnew
      · exact hdone v hold
      · exact hdropped o List.mem_cons_self hkeep v hnew

/-! ## Emitting an operation -/

/-- The operation of a draft that is created in a store and placed in the block `b`. -/
def Draft.placed (draft : Draft) (s : Store) (b : BlockId) : Operation :=
  ⟨draft.opcode, draft.operands, draft.resultTy?, draft.resultTy?.map fun _ => ⟨s.values.size⟩,
    some b⟩

/-- What emitting the operation of a draft in the block `b` does; the block lists `listing`
afterwards. -/
structure Emitted (s : Store) (b : BlockId) (listing : List OpId) (draft : Draft) (s' : Store) :
    Prop where
  ops : s'.ops = s.ops.push (draft.placed s b)
  values : s'.values = match draft.resultTy? with
    | some ty => s.values.push ⟨.result ⟨s.ops.size⟩, ty⟩
    | none => s.values
  blocks : s'.blocks = s.blocks.modify b.index fun d => { d with ops := listing }
  uses : ∀ v, s'.uses v = s.uses v ++ slotsReading ⟨s.ops.size⟩ draft.operands v
  consistent : s'.Consistent

/-- Setting the parent of an operation that was just created, and the list of its block. -/
theorem Created.emitted {s₁ : Store} {draft : Draft} (h : Created s draft s₁) (hs : s.Consistent)
    (b : BlockId) (listing : List OpId) :
    s.Emitted b listing draft ((s₁.setParent ⟨s.ops.size⟩ (some b)).setBlockOps b listing) where
  ops := by
    refine Array.ext_getElem? fun i => ?_
    show (s₁.setParent ⟨s.ops.size⟩ (some b)).ops[i]? = _
    rw [getElem?_ops_setParent, h.ops, Array.getElem?_push, Array.getElem?_push]
    by_cases hi : i = s.ops.size
    · simp [hi, Draft.operation, Draft.placed]
    · simp [hi, Ne.symm hi]
  values := h.values
  blocks := by
    show (s₁.blocks.modify b.index fun d => { d with ops := listing }) = _
    rw [h.blocks]
  uses := h.uses
  consistent := ((h.consistent hs).setParent _ _).setBlockOps _ _

namespace Emitted

variable {b : BlockId} {listing : List OpId} {draft : Draft} (h : s.Emitted b listing draft s')
include h

theorem getElem?_ops (i : Nat) : s'.ops[i]? =
    if i = s.ops.size then some (draft.placed s b) else s.ops[i]? := by
  rw [h.ops, Array.getElem?_push]

theorem entry : s'.ops[s.ops.size]? = some (draft.placed s b) :=
  (h.getElem?_ops _).trans (if_pos rfl)

theorem getElem?_values (i : Nat) : s'.values[i]? =
    if i = s.values.size then draft.resultTy?.map fun ty => ⟨.result ⟨s.ops.size⟩, ty⟩
    else s.values[i]? := by
  rw [h.values]
  cases draft.resultTy? with
  | none =>
    dsimp only
    split
    · next hi => simp [hi]
    · rfl
  | some ty => exact Array.getElem?_push

theorem ops_of_some {i : Nat} {d : Operation} (hd : s.ops[i]? = some d) : s'.ops[i]? = some d := by
  have := (Array.getElem?_eq_some_iff.1 hd).1
  rw [h.getElem?_ops, if_neg (by omega), hd]

theorem values_of_lt {i : Nat} (hi : i < s.values.size) : s'.values[i]? = s.values[i]? := by
  rw [h.getElem?_values, if_neg (by omega)]

/-- The result of the new operation is a new value, of the type of the draft. -/
theorem result_placed {v : ValueId} (hv : (draft.placed s b).result? = some v) :
    v = ⟨s.values.size⟩ ∧
      ∃ ty, draft.resultTy? = some ty ∧ s'.values[v.index]?.map (·.ty) = some ty := by
  obtain ⟨ty, hty, rfl⟩ := Option.map_eq_some_iff.1 hv
  refine ⟨rfl, ty, hty, ?_⟩
  rw [h.getElem?_values, if_pos rfl, hty]
  rfl

theorem isAllocated {v : ValueId} (hv : s.isAllocated v = true) : s'.isAllocated v = true := by
  have hlt := of_decide_eq_true hv
  have hsome := Array.getElem?_eq_getElem hlt
  rw [← h.values_of_lt hlt] at hsome
  exact decide_eq_true (Array.getElem?_eq_some_iff.1 hsome).1

theorem args (b' : BlockId) : s'.args b' = s.args b' := by
  rw [args_eq, args_eq, h.blocks, Array.getElem?_modify]
  split
  · rw [Option.map_map]
    rfl
  · rfl

theorem argTys (b' : BlockId) : s'.argTys b' = s.argTys b' := by
  rw [Store.argTys, Store.argTys, h.blocks, Array.getElem?_modify]
  split
  · rw [Option.map_map]
    rfl
  · rfl

theorem result? (o : OpId) : s'.result? o =
    if o = ⟨s.ops.size⟩ then draft.resultTy?.map fun _ => ⟨s.values.size⟩ else s.result? o := by
  obtain ⟨o⟩ := o
  rw [Store.result?, Store.result?, h.getElem?_ops]
  by_cases ho : o = s.ops.size <;> simp [ho, Draft.placed]

theorem slot? (use : Use) : s'.slot? use =
    if use.user = ⟨s.ops.size⟩ then draft.operands[use.slot]? else s.slot? use := by
  obtain ⟨⟨user⟩, slot⟩ := use
  rw [Store.slot?, Store.slot?, h.getElem?_ops]
  by_cases ho : user = s.ops.size <;> simp [ho, Draft.placed]

theorem allocated (hs : s.OperandsAllocated)
    (hoperands : ∀ v ∈ draft.operands, s.isAllocated v = true) : s'.OperandsAllocated := by
  intro use v hread
  rw [h.slot?] at hread
  split at hread
  · exact h.isAllocated (hoperands v (List.mem_of_getElem? hread))
  · exact h.isAllocated (hs use v hread)

theorem defines_of_defines {done done' : List OpId} (hmem : ∀ o ∈ done, o ∈ done') {v : ValueId}
    (hv : s.Defines p done v) : s'.Defines p done' v := by
  rcases hv with hinput | ⟨o, ho, hresult⟩
  · refine .inl ?_
    rw [Program.inputs, h.args]
    exact hinput
  · refine .inr ⟨o, hmem o ho, ?_⟩
    have hne : o ≠ ⟨s.ops.size⟩ := by
      rintro rfl
      simp [Store.result?] at hresult
    rw [h.result?, if_neg hne, hresult]

/-- **The operations that were there flow on.** -/
theorem flow (hs : s.Owned) {done done' ops : List OpId}
    (hmem : ∀ o ∈ done, o ∈ done') (hflow : s.Flow p done ops) : s'.Flow p done' ops := by
  have hrename : s'.Flow p done' (ops.filter fun _ => true) := by
    refine Flow.rename id _ hs ?_ ?_ ?_ ?_ ?_ hflow
    · intro v hv
      rw [id, h.values_of_lt (of_decide_eq_true hv)]
    · intro o _ _ d hd
      rw [List.map_id]
      exact h.ops_of_some hd
    · exact fun _ _ _ _ _ => rfl
    · exact fun _ _ hdrop => nomatch hdrop
    · exact fun v hv => h.defines_of_defines hmem hv
  rwa [List.filter_true] at hrename

/-- **A well-typed new operation fits** behind the operations that define what it reads. -/
theorem fits (hs : s.Owned) (hb : b = p.entry) {done : List OpId}
    (hoperands : ∀ v ∈ draft.operands, s.Defines p done v)
    (htyped : s.typeDefect? (draft.operation s) = none) :
    ∃ d, s'.ops[s.ops.size]? = some d ∧ s'.Fits p done d := by
  refine ⟨_, h.entry, by rw [hb]; rfl,
    fun v hv => h.defines_of_defines (fun _ ho => ho) (hoperands v hv), ?_⟩
  have hrename : s'.typeDefect? { draft.operation s with operands := draft.operands.map id } =
      s.typeDefect? (draft.operation s) :=
    typeDefect?_rename (draft.operation s) id fun v hv => by
      rw [id, h.values_of_lt (of_decide_eq_true ((hoperands v hv).isAllocated hs))]
  rw [List.map_id] at hrename
  exact hrename.trans htyped

end Emitted

/-! ## Programs under construction -/

/-- A program that is built in a store which had `start` operations before: it lists the operations
created since, and they flow. -/
structure Built (s : Store) (p : Program) (start : Nat) (done : List OpId) : Prop where
  consistent : s.Consistent
  listed : p.ops s = .ok done
  flow : s.Flow p [] done
  fresh : ∀ o : OpId, start ≤ o.index → o.index < s.ops.size → o ∈ done

theorem Consistent.built_create (hs : s.Consistent) (name : String) (tys : List Ty) :
    (s.createBlock tys []).2.Built ⟨name, ⟨s.blocks.size⟩⟩ s.ops.size [] where
  consistent := hs.createBlock tys []
  listed := ops_eq_ok_iff.2 ⟨_, Array.getElem?_push_size, rfl⟩
  flow := trivial
  fresh _ hstart hsize := absurd hsize (Nat.not_lt.2 hstart)

/-- **Emitting a well-typed operation at the end** of the program. -/
theorem Built.emitted {start : Nat} {done : List OpId} {draft : Draft} (h : s.Built p start done)
    (hoperands : ∀ v ∈ draft.operands, s.Defines p done v)
    (htyped : WellTyped s draft.opcode draft.operands draft.resultTy?)
    (he : s.Emitted p.entry (done ++ [⟨s.ops.size⟩]) draft s') :
    s'.Built p start (done ++ [⟨s.ops.size⟩]) := by
  constructor
  case consistent => exact he.consistent
  case listed =>
    obtain ⟨target, htarget, -⟩ := ops_eq_ok_iff.1 h.listed
    refine ops_eq_ok_iff.2 ⟨{ target with ops := done ++ [⟨s.ops.size⟩] }, ?_, rfl⟩
    rw [he.blocks, Array.getElem?_modify, if_pos rfl, htarget]
    rfl
  case flow =>
    exact flow_append.2 ⟨he.flow h.consistent.owned (fun _ ho => ho) h.flow,
      he.fits h.consistent.owned rfl hoperands (typeDefect?_eq_none_iff_wellTyped.2 htyped), trivial⟩
  case fresh =>
    intro o hstart hsize
    rw [he.ops, Array.size_push] at hsize
    rw [List.mem_append, List.mem_singleton]
    rcases Nat.lt_succ_iff_lt_or_eq.1 hsize with hold | hnew
    · exact .inl (h.fresh o hstart hold)
    · exact .inr (congrArg OpId.mk hnew)

/-- In a store that holds nothing else, all operands are values. -/
theorem Built.allocated {done : List OpId} (h : s.Built p 0 done) : s.OperandsAllocated := by
  intro use v hread
  obtain ⟨d, hd, hv⟩ := Option.bind_eq_some_iff.1 hread
  have hmem := h.fresh use.user (Nat.zero_le _) (Array.getElem?_eq_some_iff.1 hd).1
  obtain ⟨d', hd', hfits⟩ := h.flow.fits hmem
  rw [hd] at hd'
  cases hd'
  exact (hfits.operands v (List.mem_of_getElem? hv)).isAllocated h.consistent.owned

/-- In a store that holds nothing else, operations that end in their only `ret` make a valid
program. -/
theorem Built.valid {done : List OpId} (h : s.Built p 0 done)
    (hending : ∃ body last, done = body ++ [last] ∧ s.opcode? last = some .ret ∧
      ∀ o ∈ body, s.opcode? o ≠ some .ret) : s.Valid p done where
  listed := h.listed
  flow := h.flow
  ending := hending
  closed := by
    intro v use _ hread
    obtain ⟨d, hd, -⟩ := Option.bind_eq_some_iff.1 hread
    exact h.fresh use.user (Nat.zero_le _) (Array.getElem?_eq_some_iff.1 hd).1

end Store

namespace Builder

open Store

/-- The list of a block with an operation at the place of a builder. -/
def Places (point : InsertPoint) (ops : List OpId) (o : OpId) (listing : List OpId) : Prop :=
  match point with
  | .atEnd _ => listing = ops ++ [o]
  | .before _ anchor => ∃ place, ops.idxOf? anchor = some place ∧ listing = ops.insertIdx place o

variable {s : Store} {target : Block} {listing : List OpId}

/-- **Emitting an operation succeeds** at a place of a block that exists. -/
theorem emit_eq_done (hs : s.Consistent) (point : InsertPoint) {draft : Draft}
    (hdraft : draft.parent? = none) (htarget : s.blocks[point.block.index]? = some target)
    (hplace : Places point target.ops ⟨s.ops.size⟩ listing) (emitted : List OpId) :
    ∃ s', emit draft ⟨s, point, emitted⟩ =
        .done ⟨s.ops.size⟩ ⟨s', point, emitted ++ [⟨s.ops.size⟩]⟩ ∧
      s.Emitted point.block listing draft s' := by
  obtain ⟨s₁, hcreate, hcreated⟩ := s.createOp_eq hdraft
  have hentry : s₁.ops[s.ops.size]? = some (draft.operation s) := by
    rw [hcreated.ops, Array.getElem?_push, if_pos rfl]
  have hblock : s₁.blocks[point.block.index]? = some target := by
    rw [hcreated.blocks, htarget]
  have hplaced : place point s₁ ⟨s.ops.size⟩ =
      .ok ((s₁.setParent ⟨s.ops.size⟩ (some point.block)).setBlockOps point.block listing) := by
    cases point with
    | atEnd b =>
      obtain rfl := hplace
      refine bind_eq_ok.2 ⟨_, op_eq_ok_iff.2 hentry, ?_⟩
      rw [if_neg (by simp [Draft.operation])]
      exact bind_eq_ok.2 ⟨target, block_eq_ok_iff.2 hblock, rfl⟩
    | before b anchor =>
      obtain ⟨at_, hat, rfl⟩ := hplace
      refine bind_eq_ok.2 ⟨_, op_eq_ok_iff.2 hentry, ?_⟩
      rw [if_neg (by simp [Draft.operation])]
      refine bind_eq_ok.2 ⟨target, block_eq_ok_iff.2 hblock, ?_⟩
      rw [hat]
      rfl
  refine ⟨_, ?_, hcreated.emitted hs point.block listing⟩
  simp only [emit, Edit.step, hcreate, bind, Except.bind, hplaced, pure, Except.pure]

/-- **Emitting an operation with a result succeeds** at a place of a block that exists. -/
theorem emitValue_eq_done (hs : s.Consistent) (point : InsertPoint) (opcode : Opcode)
    (operands : List ValueId) (ty : Ty)
    (htarget : s.blocks[point.block.index]? = some target)
    (hplace : Places point target.ops ⟨s.ops.size⟩ listing) (emitted : List OpId) :
    ∃ s', emitValue opcode operands ty ⟨s, point, emitted⟩ =
        .done ⟨s.values.size⟩ ⟨s', point, emitted ++ [⟨s.ops.size⟩]⟩ ∧
      s.Emitted point.block listing ⟨opcode, operands, some ty, none⟩ s' := by
  let draft : Draft := ⟨opcode, operands, some ty, none⟩
  obtain ⟨s', hemit, he⟩ := emit_eq_done hs point (show draft.parent? = none from rfl) htarget
    hplace emitted
  refine ⟨s', ?_, he⟩
  rw [emitValue, Edit.bind_done hemit]
  have hresult : s'.result? ⟨s.ops.size⟩ = some ⟨s.values.size⟩ := (he.result? _).trans (if_pos rfl)
  simp only [Edit.read, hresult]

/-- **What emitting an operation has done**, at whatever place. -/
theorem emitted_of_emit (hs : s.Consistent) {point : InsertPoint} {draft : Draft}
    {emitted : List OpId} {o : OpId} {b : Builder}
    (h : emit draft ⟨s, point, emitted⟩ = .done o b) :
    ∃ target listing s', s.blocks[point.block.index]? = some target ∧
      Places point target.ops ⟨s.ops.size⟩ listing ∧ o = ⟨s.ops.size⟩ ∧
      b = ⟨s', point, emitted ++ [⟨s.ops.size⟩]⟩ ∧ s.Emitted point.block listing draft s' := by
  -- the place exists, so emitting there succeeds, in the one way there is
  suffices hfound : draft.parent? = none ∧ ∃ target listing,
      s.blocks[point.block.index]? = some target ∧
      Places point target.ops ⟨s.ops.size⟩ listing by
    obtain ⟨hdraft, target, listing, htarget, hplace⟩ := hfound
    obtain ⟨s', hemit, he⟩ := emit_eq_done hs point hdraft htarget hplace emitted
    rw [h] at hemit
    cases hemit
    exact ⟨target, listing, s', htarget, hplace, rfl, rfl, he⟩
  unfold emit Edit.step at h
  dsimp only at h
  cases hcreate : s.createOp draft with
  | error f => simp [hcreate, bind, Except.bind] at h
  | ok created =>
    obtain ⟨o', s₁⟩ := created
    obtain ⟨rfl, hcreated⟩ := createOp_ok hcreate
    refine ⟨hcreated.unlinked, ?_⟩
    rw [← hcreated.blocks]
    cases hplace : place point s₁ ⟨s.ops.size⟩ with
    | error f => simp [hcreate, hplace, bind, Except.bind] at h
    | ok s₂ =>
      cases point with
      | atEnd block =>
        obtain ⟨d, target, -, -, htarget, -⟩ := pushOp_ok hplace
        exact ⟨target, _, htarget, rfl⟩
      | before block anchor =>
        obtain ⟨d, target, place, -, -, htarget, hanchor, -⟩ := insertOpBefore_ok hplace
        exact ⟨target, _, htarget, place, hanchor, rfl⟩

/-- **What emitting an operation with a result has done**, at whatever place. -/
theorem emitted_of_emitValue (hs : s.Consistent) {point : InsertPoint} {opcode : Opcode}
    {operands : List ValueId} {ty : Ty} {emitted : List OpId} {v : ValueId} {b : Builder}
    (h : emitValue opcode operands ty ⟨s, point, emitted⟩ = .done v b) :
    ∃ target listing s', s.blocks[point.block.index]? = some target ∧
      Places point target.ops ⟨s.ops.size⟩ listing ∧ v = ⟨s.values.size⟩ ∧
      b = ⟨s', point, emitted ++ [⟨s.ops.size⟩]⟩ ∧
      s.Emitted point.block listing ⟨opcode, operands, some ty, none⟩ s' := by
  obtain ⟨o, b₁, hemit, hread⟩ := Edit.bind_eq_done.1 h
  obtain ⟨target, listing, s', htarget, hplace, rfl, rfl, he⟩ := emitted_of_emit hs hemit
  obtain ⟨hresult, rfl⟩ := Edit.read_eq_done.1 hread
  rw [he.result?, if_pos rfl] at hresult
  cases hresult
  exact ⟨target, listing, s', htarget, hplace, rfl, rfl, he⟩

end Builder

/-! ## Calls that pass the checks of types -/

namespace Builder

open Store

variable {b b' : Builder} {v v' : ValueId} {ty : Ty}

theorem typeOf_eq_done (hty : b.store.values[v.index]?.map (·.ty) = some ty) :
    typeOf v b = .done ty b := by
  have hok : (liftM (b.store.valueTy v) : Attempt BuildError Ty) = .ok ty :=
    lift_eq_ok.2 (valueTy_eq_ok_iff.2 hty)
  exact Edit.read_done hok

theorem require_eq_done {holds : Bool} (h : holds = true) (defect : OperandDefect) (b : Builder) :
    require holds defect b = .done () b := by
  rw [require, if_pos h]
  rfl

theorem unary_eq_emitValue {op : UnaryOp} (hty : b.store.values[v.index]?.map (·.ty) = some ty)
    (haccepts : op.accepts ty = true) : unary op v b = emitValue (.unary op) [v] ty b := by
  rw [unary, Edit.bind_done (typeOf_eq_done hty), Edit.bind_done (require_eq_done haccepts _ _)]

theorem commonType_eq_done (opcode : Opcode)
    (hty : b.store.values[v.index]?.map (·.ty) = some ty)
    (hty' : b.store.values[v'.index]?.map (·.ty) = some ty) :
    commonType opcode v v' b = .done ty b := by
  rw [commonType, Edit.bind_done (typeOf_eq_done hty), Edit.bind_done (typeOf_eq_done hty'),
    Edit.bind_done (require_eq_done (decide_eq_true rfl) _ _)]
  rfl

theorem binary_eq_emitValue {op : BinaryOp} (hty : b.store.values[v.index]?.map (·.ty) = some ty)
    (hty' : b.store.values[v'.index]?.map (·.ty) = some ty) (haccepts : op.accepts ty = true) :
    binary op v v' b = emitValue (.binary op) [v, v'] ty b := by
  rw [binary, Edit.bind_done (commonType_eq_done _ hty hty'),
    Edit.bind_done (require_eq_done haccepts _ _)]

theorem compare_eq_emitValue {test : Comparison}
    (hty : b.store.values[v.index]?.map (·.ty) = some ty)
    (hty' : b.store.values[v'.index]?.map (·.ty) = some ty) :
    compare test v v' b = emitValue (.compare test) [v, v'] .bool b := by
  rw [compare, Edit.bind_done (commonType_eq_done _ hty hty')]

/-! ## Calls that are done -/

theorem typeOf_done {x : ValueId} {ty : Ty} (h : typeOf x b = .done ty b') :
    b.store.values[x.index]?.map (·.ty) = some ty ∧ b' = b := by
  obtain ⟨hty, rfl⟩ := Edit.read_eq_done.1 h
  exact ⟨valueTy_eq_ok_iff.1 (lift_eq_ok.1 hty), rfl⟩

theorem require_done {holds : Bool} {defect : OperandDefect} {u : Unit}
    (h : require holds defect b = .done u b') : holds = true ∧ b' = b := by
  unfold require at h
  split at h
  · next hholds =>
    cases h
    exact ⟨hholds, rfl⟩
  · cases h

theorem int_done {ty : Ty} {value : Int} {v : ValueId} (h : int ty value b = .done v b') :
    ∃ w : Width, ty = .int w ∧ emitValue (.const (w.ofInt value)) [] (.int w) b = .done v b' := by
  unfold int at h
  cases ty with
  | int w => exact ⟨w, rfl, h⟩
  | double => cases h
  | bool => cases h

theorem unary_done {op : UnaryOp} {x v : ValueId} (h : unary op x b = .done v b') :
    ∃ ty, WellTyped b.store (.unary op) [x] (some ty) ∧
      emitValue (.unary op) [x] ty b = .done v b' := by
  obtain ⟨ty, b₁, htypeOf, hrest⟩ := Edit.bind_eq_done.1 h
  obtain ⟨_, b₂, hrequire, hemit⟩ := Edit.bind_eq_done.1 hrest
  obtain ⟨hx, rfl⟩ := typeOf_done htypeOf
  obtain ⟨haccepts, rfl⟩ := require_done hrequire
  exact ⟨ty, .unary hx haccepts, hemit⟩

theorem commonType_done {opcode : Opcode} {x y : ValueId} {ty : Ty}
    (h : commonType opcode x y b = .done ty b') :
    b.store.values[x.index]?.map (·.ty) = some ty ∧
      b.store.values[y.index]?.map (·.ty) = some ty ∧ b' = b := by
  obtain ⟨ty₁, b₁, htypeOf₁, hrest₁⟩ := Edit.bind_eq_done.1 h
  obtain ⟨ty₂, b₂, htypeOf₂, hrest₂⟩ := Edit.bind_eq_done.1 hrest₁
  obtain ⟨_, b₃, hrequire, hpure⟩ := Edit.bind_eq_done.1 hrest₂
  cases hpure
  obtain ⟨hx, rfl⟩ := typeOf_done htypeOf₁
  obtain ⟨hy, rfl⟩ := typeOf_done htypeOf₂
  obtain ⟨hsame, rfl⟩ := require_done hrequire
  obtain rfl : ty = ty₂ := of_decide_eq_true hsame
  exact ⟨hx, hy, rfl⟩

theorem binary_done {op : BinaryOp} {x y v : ValueId} (h : binary op x y b = .done v b') :
    ∃ ty, WellTyped b.store (.binary op) [x, y] (some ty) ∧
      emitValue (.binary op) [x, y] ty b = .done v b' := by
  obtain ⟨ty, b₁, hcommon, hrest⟩ := Edit.bind_eq_done.1 h
  obtain ⟨_, b₂, hrequire, hemit⟩ := Edit.bind_eq_done.1 hrest
  obtain ⟨hx, hy, rfl⟩ := commonType_done hcommon
  obtain ⟨haccepts, rfl⟩ := require_done hrequire
  exact ⟨ty, .binary hx hy haccepts, hemit⟩

end Builder

end Mba
