import Mba.Proofs.Listing.Printing
import Mba.Proofs.Program.Appended

/-!
# A store behind another one

Numbers are given away in order, so what is created in a store that holds something already is what
would be created in an empty one, only with numbers behind those that were given away before. The
store then holds its old entries, as they were, and those of the other store, moved behind them.

Results:
* `Joined.createBlock`, `Joined.emitted`: two stores stay joined when the same is created in both.
* `Joined.sameOn`: the entries in front are as they were.
* `Joined.print_eq`: a program whose operations flow is printed in the same way from behind.
-/

namespace Mba

open Listing

/-! ## Numbers behind those of a store -/

/-- The number behind all operations of `a` that `o` is moved to. -/
def OpId.behind (a : Store) (o : OpId) : OpId := ⟨a.ops.size + o.index⟩

/-- The number behind all values of `a` that `v` is moved to. -/
def ValueId.behind (a : Store) (v : ValueId) : ValueId := ⟨a.values.size + v.index⟩

/-- The number behind all blocks of `a` that `b` is moved to. -/
def BlockId.behind (a : Store) (b : BlockId) : BlockId := ⟨a.blocks.size + b.index⟩

def Origin.behind (a : Store) : Origin → Origin
  | .result o => .result (o.behind a)
  | .argument b i => .argument (b.behind a) i

def Operation.behind (a : Store) (d : Operation) : Operation :=
  ⟨d.opcode, d.operands.map (.behind a), d.resultTy?, d.result?.map (.behind a),
    d.parent?.map (.behind a)⟩

def Value.behind (a : Store) (x : Value) : Value := ⟨x.origin.behind a, x.ty⟩

def Block.behind (a : Store) (d : Block) : Block :=
  ⟨d.argTys, d.args.map (.behind a), d.ops.map (.behind a)⟩

def Program.behind (a : Store) (p : Program) : Program := ⟨p.name, p.entry.behind a⟩

def Store.Draft.behind (a : Store) (draft : Store.Draft) : Store.Draft :=
  ⟨draft.opcode, draft.operands.map (.behind a), draft.resultTy?, draft.parent?.map (.behind a)⟩

theorem ValueId.behind_inj {a : Store} {v w : ValueId} : v.behind a = w.behind a ↔ v = w := by
  cases v; cases w; simp [behind]

namespace Store

/-! ## Joined stores -/

/-- The store `s` holds what `a` held, as it was there, and behind it what `t` holds. -/
structure Joined (a t s : Store) : Prop where
  ops : s.ops = a.ops ++ t.ops.map (.behind a)
  values : s.values = a.values ++ t.values.map (.behind a)
  blocks : s.blocks = a.blocks ++ t.blocks.map (.behind a)
  uses : ∀ v, a.isAllocated v = true → s.uses v = a.uses v

variable {a t s t' s' : Store} {p : Program}

theorem joined_empty (a : Store) : Joined a empty a where
  ops := by simp [empty]
  values := by simp [empty]
  blocks := by simp [empty]
  uses _ _ := rfl

namespace Joined

section Read

variable (h : Joined a t s)
include h

/-- **The entries in front are as they were.** -/
theorem sameOn : SameOn (Part.all a) a s where
  ops o ho := by
    rw [h.ops, Array.getElem?_append_left ho]
  values v hv := by
    rw [h.values, Array.getElem?_append_left (of_decide_eq_true hv)]
  uses v hv := h.uses v hv
  blocks b hb := by
    rw [h.blocks, Array.getElem?_append_left hb]

theorem size_ops : s.ops.size = a.ops.size + t.ops.size := by
  rw [h.ops, Array.size_append, Array.size_map]

theorem size_values : s.values.size = a.values.size + t.values.size := by
  rw [h.values, Array.size_append, Array.size_map]

theorem size_blocks : s.blocks.size = a.blocks.size + t.blocks.size := by
  rw [h.blocks, Array.size_append, Array.size_map]

theorem getElem?_ops (o : OpId) :
    s.ops[(o.behind a).index]? = t.ops[o.index]?.map (.behind a) := by
  rw [h.ops, OpId.behind, Array.getElem?_append_right (Nat.le_add_right _ _), Nat.add_sub_cancel_left,
    Array.getElem?_map]

theorem getElem?_values (v : ValueId) :
    s.values[(v.behind a).index]? = t.values[v.index]?.map (.behind a) := by
  rw [h.values, ValueId.behind, Array.getElem?_append_right (Nat.le_add_right _ _),
    Nat.add_sub_cancel_left, Array.getElem?_map]

theorem getElem?_blocks (b : BlockId) :
    s.blocks[(b.behind a).index]? = t.blocks[b.index]?.map (.behind a) := by
  rw [h.blocks, BlockId.behind, Array.getElem?_append_right (Nat.le_add_right _ _),
    Nat.add_sub_cancel_left, Array.getElem?_map]

theorem map_ty (v : ValueId) :
    s.values[(v.behind a).index]?.map (·.ty) = t.values[v.index]?.map (·.ty) := by
  rw [h.getElem?_values, Option.map_map]
  rfl

theorem exists_valueTy {v : ValueId} (hv : v.index < t.values.size) :
    ∃ ty, t.valueTy v = .ok ty ∧ s.valueTy (v.behind a) = .ok ty := by
  have hty : t.values[v.index]?.map (·.ty) = some t.values[v.index].ty := by
    rw [Array.getElem?_eq_getElem hv, Option.map_some]
  exact ⟨_, valueTy_eq_ok_iff.2 hty, valueTy_eq_ok_iff.2 ((h.map_ty v).trans hty)⟩

theorem args (b : BlockId) : s.args (b.behind a) = (t.args b).map (.behind a) := by
  rw [args_eq, args_eq, h.getElem?_blocks]
  cases t.blocks[b.index]? <;> rfl

theorem argTys (b : BlockId) : s.argTys (b.behind a) = t.argTys b := by
  rw [Store.argTys, Store.argTys, h.getElem?_blocks, Option.map_map]
  rfl

theorem listed {ops : List OpId} (hops : p.ops t = .ok ops) :
    (p.behind a).ops s = .ok (ops.map (.behind a)) := by
  obtain ⟨d, hd, rfl⟩ := ops_eq_ok_iff.1 hops
  refine ops_eq_ok_iff.2 ⟨d.behind a, ?_, rfl⟩
  rw [Program.behind, h.getElem?_blocks, hd]
  rfl

end Read

/-! ## Creating the same -/

/-- The values of the inputs of a block. -/
def argumentValues (home : BlockId) (tys : List Ty) : List Value :=
  tys.zipIdx.map fun entry => ⟨.argument home entry.2, entry.1⟩

theorem argumentValues_behind (a : Store) (home : BlockId) (tys : List Ty) :
    argumentValues (home.behind a) tys = (argumentValues home tys).map (.behind a) := by
  rw [argumentValues, argumentValues, List.map_map]
  rfl

/-- **Stores stay joined** when the same block is created in both. -/
theorem createBlock (h : Joined a t s) (tys : List Ty) :
    Joined a (t.createBlock tys []).2 (s.createBlock tys []).2 where
  ops := h.ops
  values := by
    have hargs : argumentValues ⟨s.blocks.size⟩ tys =
        (argumentValues ⟨t.blocks.size⟩ tys).map (.behind a) := by
      rw [h.size_blocks, ← argumentValues_behind]
      rfl
    refine Array.toList_inj.1 ?_
    show (s.values ++ argumentValues _ tys).toList =
      (a.values ++ (t.values ++ argumentValues _ tys).map (Value.behind a)).toList
    simp only [h.values, hargs, Array.toList_appendList, Array.toList_append, Array.toList_map,
      List.map_append, List.append_assoc]
  blocks := by
    have hargs : (List.range tys.length).map (fun i => (⟨s.values.size + i⟩ : ValueId)) =
        ((List.range tys.length).map fun i => (⟨t.values.size + i⟩ : ValueId)).map
          (.behind a) := by
      rw [List.map_map, h.size_values]
      exact List.map_congr_left fun i _ => congrArg ValueId.mk (Nat.add_assoc _ _ _)
    show s.blocks.push ⟨tys, _, []⟩ = a.blocks ++ (t.blocks.push ⟨tys, _, []⟩).map (.behind a)
    rw [hargs, h.blocks, Array.map_push, Array.append_push]
    rfl
  uses := h.uses

/-- **Stores stay joined** when the same operation is emitted in both. -/
theorem emitted (h : Joined a t s) {b : BlockId} {listing : List OpId} {draft : Draft}
    (ht : t.Emitted b listing draft t')
    (hs : s.Emitted (b.behind a) (listing.map (.behind a)) (draft.behind a) s') :
    Joined a t' s' where
  ops := by
    have hplaced : (draft.behind a).placed s (b.behind a) = (draft.placed t b).behind a := by
      simp only [Draft.placed, Draft.behind, Operation.behind, h.size_values, Option.map_map,
        Option.map_some]
      rfl
    rw [hs.ops, ht.ops, h.ops, hplaced, Array.map_push, Array.append_push]
  values := by
    have hty : (draft.behind a).resultTy? = draft.resultTy? := rfl
    rw [hs.values, ht.values, hty]
    cases draft.resultTy? with
    | none => exact h.values
    | some ty =>
      dsimp only
      rw [h.values, h.size_ops, Array.map_push, Array.append_push]
      rfl
  blocks := by
    rw [hs.blocks, ht.blocks, h.blocks]
    refine Array.ext_getElem? fun i => ?_
    simp only [BlockId.behind, Array.getElem?_modify, Array.getElem?_append, Array.getElem?_map]
    by_cases hi : i < a.blocks.size
    · rw [if_pos hi, if_pos hi, if_neg (by omega)]
    · rw [if_neg hi, if_neg hi]
      by_cases heq : b.index = i - a.blocks.size
      · rw [if_pos (by omega), if_pos heq, Option.map_map, Option.map_map]
        rfl
      · rw [if_neg (by omega), if_neg heq]
  uses v hv := by
    rw [hs.uses, h.uses v hv, slotsReading_eq_nil, List.append_nil]
    intro hmem
    obtain ⟨w, -, rfl⟩ := List.mem_map.1 hmem
    have hlt := of_decide_eq_true hv
    simp only [ValueId.behind] at hlt
    omega

end Joined

/-! ## Printing from behind -/

/-- The values of `t` are numbered in the same way behind `a`. -/
structure NumberedBehind (a : Store) (n n' : Numbering) : Prop where
  next : n'.next = n.next
  number? : ∀ v, n'.number? (v.behind a) = n.number? v

namespace NumberedBehind

variable {n n' : Numbering}

theorem assign (h : NumberedBehind a n n') (v : ValueId) :
    NumberedBehind a (n.assign v) (n'.assign (v.behind a)) where
  next := congrArg (· + 1) h.next
  number? w := by
    rw [n.number?_assign, n'.number?_assign, h.number?, h.next]
    simp only [ValueId.behind_inj]

theorem assignAll (h : NumberedBehind a n n') (vs : List ValueId) :
    NumberedBehind a (n.assignAll vs) (n'.assignAll (vs.map (.behind a))) := by
  induction vs generalizing n n' with
  | nil => exact h
  | cons v vs ih => exact ih (h.assign v)

theorem after (h : NumberedBehind a n n') (d : Operation) :
    NumberedBehind a (n.after d) (n'.after (d.behind a)) := by
  unfold Numbering.after Operation.behind
  cases d.result? with
  | none => exact h
  | some v => exact h.assign v

end NumberedBehind

theorem numberedBehind_start (a : Store) : NumberedBehind a .start .start where
  next := rfl
  number? v := by rw [Numbering.number?_start, Numbering.number?_start]

/-- Operations have the same lines behind the entries of `a`. -/
theorem Lists.behind (h : Joined a t s) {n n' : Numbering} {ops : List OpId} {lines : List Line}
    (hlines : Lists t n ops lines) (hn : NumberedBehind a n n') :
    Lists s n' (ops.map (.behind a)) lines := by
  induction hlines generalizing n' with
  | nil n => exact .nil n'
  | @cons n o rest lines d operands entry numbers more ih =>
    have hentry : s.ops[(o.behind a).index]? = some (d.behind a) := by
      rw [h.getElem?_ops, entry]
      rfl
    have hnumbers : Numbers n' (d.behind a).operands operands := by
      rw [Numbers, ← numbers]
      show (d.operands.map _).map _ = _
      rw [List.map_map]
      exact List.map_congr_left fun v _ => hn.number? v
    have hline : d.line operands n.next = (d.behind a).line operands n'.next := by
      rw [hn.next]
      simp only [Operation.line, Operation.literal?, Operation.behind, Option.map_map]
      rfl
    rw [hline]
    exact .cons hentry hnumbers (ih (hn.after d))

/-- **A program whose operations flow is printed in the same way from behind.** -/
theorem Joined.print_eq (h : Joined a t s) (ht : t.Owned) (hs : s.Owned) {ops : List OpId}
    (hops : p.ops t = .ok ops) (hflow : t.Flow p [] ops) :
    ∃ text, p.print t = .ok text ∧ (p.behind a).print s = .ok text := by
  obtain ⟨lines, hlines⟩ := (covers_inputs t p).lists hflow
  have hnumbered : NumberedBehind a (Numbering.start.assignAll (p.inputs t))
      (Numbering.start.assignAll ((p.behind a).inputs s)) := by
    rw [Program.inputs, Program.inputs, Program.behind, h.args]
    exact (numberedBehind_start a).assignAll _
  obtain ⟨text, hprint, htext⟩ := print_ok ht hops hlines
  obtain ⟨text', hprint', htext'⟩ := print_ok hs (h.listed hops) (hlines.behind h hnumbered)
  have hlisting : s.listing (p.behind a) lines = t.listing p lines := by
    rw [listing, listing, Program.behind, h.argTys]
  refine ⟨text, hprint, ?_⟩
  rw [hprint', String.toList_injective (htext'.trans (hlisting ▸ htext.symm))]

end Store

end Mba
