import Mathlib.Data.Finset.Insert
import Mathlib.Data.List.Nodup
import Mba.Proofs.Mutation.Round

/-!
# Programs some of whose operations are replaced

A plan says by which code each operation of a program would be replaced. Which operations the
program has when some of them are replaced, and which values these read, does not depend on the
order in which that was done: an operation reads what takes the place of the values that it read
before, and the code for an operation reads what takes the place of its operands. Only the numbers
of the new operations and values depend on the order. So both are called by labels here, which say
for which operation they were created and at which index of its code.

Results:
* `number_valueLabel_insert`: replacing one operation more renames its result in what is read.
* `CarriedOut.replace`: a store in which a plan was carried out for some operations, and in which
  one more is replaced, is one in which it was carried out for that one as well.
-/

namespace Mba

open Template (Source Instruction)

/-- What an operation or a value is called: it was there at the start and has kept its number, or
the code for an operation has created it at an index. -/
inductive Label (α : Type)
  | kept (a : α)
  | fresh (o : OpId) (index : Nat)
  deriving DecidableEq, Repr

/-- The number behind a label, where the code for an operation has the numbers from `first` on. -/
def Label.number {α : Type} (mk : Nat → α) (first : OpId → Nat) : Label α → α
  | .kept a => a
  | .fresh o index => mk (first o + index)

/-- An operation whose values are called by labels. -/
structure LabelledOp where
  opcode : Opcode
  operands : List (Label ValueId)
  resultTy? : Option Ty
  result? : Option (Label ValueId)
  deriving DecidableEq, Repr

def LabelledOp.operation (d : LabelledOp) (first : OpId → Nat) (b : BlockId) : Operation :=
  ⟨d.opcode, d.operands.map (Label.number ValueId.mk first), d.resultTy?,
    d.result?.map (Label.number ValueId.mk first), some b⟩

/-- The store before any operation is replaced, and the code that each one would be replaced by. -/
structure Plan where
  store : Store
  code : OpId → List Instruction

namespace Plan

open Store

variable (π : Plan) (done : Finset OpId)

/-- What takes the place of a value when the operations `done` are replaced. -/
def valueLabel (v : ValueId) : Label ValueId :=
  match π.store.values[v.index]? with
  | some ⟨.result o, _⟩ => if o ∈ done then .fresh o ((π.code o).length - 1) else .kept v
  | some ⟨.argument _ _, _⟩ => .kept v
  | none => .kept v

/-- What takes the place of a list of operations. -/
def opLabels (ops : List OpId) : List (Label OpId) :=
  ops.flatMap fun o =>
    if o ∈ done then (List.range (π.code o).length).map (.fresh o) else [.kept o]

/-- What the code for an operation with the operands `x` and `y` reads. -/
def sourceLabel (o : OpId) (x y : ValueId) : Source → Label ValueId
  | .x => π.valueLabel done x
  | .y => π.valueLabel done y
  | .result index => .fresh o index

/-- The operation behind a label. -/
def labelled? : Label OpId → Option LabelledOp
  | .kept o => π.store.ops[o.index]?.map fun d =>
    ⟨d.opcode, d.operands.map (π.valueLabel done), d.resultTy?, d.result?.map .kept⟩
  | .fresh o index =>
    match π.store.ops[o.index]?, (π.code o)[index]? with
    | some ⟨_, [x, y], ty?, _, _⟩, some i =>
      some ⟨i.opcode, i.operands.map (π.sourceLabel done o x y), ty?, some (.fresh o index)⟩
    | _, _ => none

variable {π done}

theorem kept_mem_opLabels {ops : List OpId} {o : OpId} :
    .kept o ∈ π.opLabels done ops ↔ o ∈ ops ∧ o ∉ done := by
  simp only [opLabels, List.mem_flatMap]
  constructor
  · rintro ⟨o', ho', hmem⟩
    split at hmem
    · simp at hmem
    · next hnew =>
      cases List.mem_singleton.1 hmem
      exact ⟨ho', hnew⟩
  · rintro ⟨ho, hnew⟩
    exact ⟨o, ho, by simp [hnew]⟩

theorem fresh_mem_opLabels {ops : List OpId} {o : OpId} {index : Nat} :
    .fresh o index ∈ π.opLabels done ops ↔ o ∈ ops ∧ o ∈ done ∧ index < (π.code o).length := by
  simp only [opLabels, List.mem_flatMap]
  constructor
  · rintro ⟨o', ho', hmem⟩
    split at hmem
    · next hdone =>
      obtain ⟨index', hindex, heq⟩ := List.mem_map.1 hmem
      cases heq
      exact ⟨ho', hdone, List.mem_range.1 hindex⟩
    · simp at hmem
  · rintro ⟨ho, hdone, hindex⟩
    exact ⟨o, ho, by simp [hdone, hindex]⟩

theorem labelled?_fresh_iff {o : OpId} {index : Nat} {a : LabelledOp} :
    π.labelled? done (.fresh o index) = some a ↔ ∃ d x y i, π.store.ops[o.index]? = some d ∧
      d.operands = [x, y] ∧ (π.code o)[index]? = some i ∧
      a = ⟨i.opcode, i.operands.map (π.sourceLabel done o x y), d.resultTy?,
        some (.fresh o index)⟩ := by
  simp only [labelled?]
  constructor
  · intro h
    split at h
    · next opcode x y ty? result? parent? i hd hi =>
      cases h
      exact ⟨_, x, y, i, hd, rfl, hi, rfl⟩
    · cases h
  · rintro ⟨⟨_, _, _, _, _⟩, x, y, i, hd, hoperands, hi, rfl⟩
    cases hoperands
    simp only [hd, hi]

theorem opLabels_append (front back : List OpId) :
    π.opLabels done (front ++ back) = π.opLabels done front ++ π.opLabels done back :=
  List.flatMap_append

theorem opLabels_cons (o : OpId) (rest : List OpId) : π.opLabels done (o :: rest) =
    (if o ∈ done then (List.range (π.code o).length).map (.fresh o) else [.kept o]) ++
      π.opLabels done rest :=
  List.flatMap_cons

theorem opLabels_insert {o : OpId} {ops : List OpId} (ho : o ∉ ops) :
    π.opLabels (insert o done) ops = π.opLabels done ops := by
  refine List.flatMap_congr fun o' ho' => ?_
  have hne : o' ≠ o := fun heq => ho (heq ▸ ho')
  simp only [Finset.mem_insert, hne, false_or]

/-! ## One operation more -/

/-- A value is read itself, or the last result of the code for an operation is. -/
theorem valueLabel_cases (π : Plan) (done : Finset OpId) (v : ValueId) :
    π.valueLabel done v = .kept v ∨
      ∃ o ∈ done, π.valueLabel done v = .fresh o ((π.code o).length - 1) := by
  unfold valueLabel
  split
  · next o _ _ =>
    by_cases ho : o ∈ done
    · exact .inr ⟨o, ho, if_pos ho⟩
    · exact .inl (if_neg ho)
  · exact .inl rfl
  · exact .inl rfl

/-- What holds of the first number for one operation more, and of those before. -/
theorem forall_update {P : OpId → Nat → Prop} {o : OpId} {first : Nat} {f : OpId → Nat}
    (ho : o ∉ done) (hnew : P o first) (hdone : ∀ o' ∈ done, P o' (f o')) :
    ∀ o' ∈ insert o done, P o' (Function.update f o first o') := by
  intro o' ho'
  by_cases heq : o' = o
  · subst heq
    rwa [Function.update_self]
  · rw [Function.update_of_ne heq]
    exact hdone o' ((Finset.mem_insert.1 ho').resolve_left heq)

section Insert

variable {o : OpId} {old v : ValueId} {firstOp firstValue : OpId → Nat} {first : Nat}

/-- The number behind a label of an operation is not touched by code for another one. -/
theorem number_update {α : Type} {mk : Nat → α} {f : OpId → Nat} {a : Label α}
    (h : ∀ index, a ≠ .fresh o index) :
    a.number mk (Function.update f o first) = a.number mk f := by
  cases a with
  | kept a => rfl
  | fresh o' index =>
    have hne : o' ≠ o := by
      rintro rfl
      exact h index rfl
    rw [Label.number, Label.number, Function.update_of_ne hne]

variable (hs : π.store.Owned) (hold : π.store.result? o = some old)
include hs hold

theorem valueLabel_result : π.valueLabel done old =
    if o ∈ done then .fresh o ((π.code o).length - 1) else .kept old := by
  obtain ⟨ty, -, horigin⟩ := hs.result_origin o old hold
  simp only [valueLabel, horigin]

theorem valueLabel_insert_of_ne (hne : v ≠ old) :
    π.valueLabel (insert o done) v = π.valueLabel done v := by
  unfold valueLabel
  split
  · next o' ty hv =>
    have hother : o' ≠ o := by
      rintro rfl
      exact hne (Option.some.inj ((hs.origin_result o' v ty hv).symm.trans hold))
    simp only [Finset.mem_insert, hother, false_or]
  · rfl
  · rfl

/-- Code creates values with numbers that were not taken. -/
theorem fresh_ne_result {n : Nat} (hge : π.store.values.size ≤ n) (index : Nat) :
    (⟨n + index⟩ : ValueId) ≠ old := by
  rintro rfl
  obtain ⟨ty, -, horigin⟩ := hs.result_origin o _ hold
  have : n + index < π.store.values.size := (Array.getElem?_eq_some_iff.1 horigin).1
  omega

variable (ho : o ∉ done) (hge : ∀ o' ∈ done, π.store.values.size ≤ firstValue o')
include ho hge

/-- **Replacing one operation more renames its result** in what is read. -/
theorem number_valueLabel_insert (v : ValueId) :
    (π.valueLabel (insert o done) v).number ValueId.mk (Function.update firstValue o first) =
      ValueId.rename old ⟨first + ((π.code o).length - 1)⟩
        ((π.valueLabel done v).number ValueId.mk firstValue) := by
  by_cases heq : v = old
  · subst heq
    rw [valueLabel_result hs hold, valueLabel_result hs hold, if_pos (Finset.mem_insert_self o done),
      if_neg ho]
    simp [Label.number, ValueId.rename]
  · rw [valueLabel_insert_of_ne hs hold heq]
    rcases π.valueLabel_cases done v with hkept | ⟨o', hmem, hfresh⟩
    · rw [hkept]
      exact (if_neg heq).symm
    · have hne : o' ≠ o := fun h => ho (h ▸ hmem)
      rw [hfresh, number_update fun _ h => hne (Label.fresh.inj h).1]
      exact (if_neg (fresh_ne_result hs hold (hge o' hmem) _)).symm

variable (hfirst : π.store.values.size ≤ first)
include hfirst

/-- What an instruction reads when one operation more is replaced. -/
theorem number_sourceLabel_insert {o' : OpId} (ho' : o' ∈ insert o done) (x y : ValueId)
    (a : Source) :
    (π.sourceLabel (insert o done) o' x y a).number ValueId.mk (Function.update firstValue o first) =
      ValueId.rename old ⟨first + ((π.code o).length - 1)⟩
        (a.value ((π.valueLabel done x).number ValueId.mk firstValue)
          ((π.valueLabel done y).number ValueId.mk firstValue)
          (Function.update firstValue o first o')) := by
  cases a with
  | x => exact number_valueLabel_insert hs hold ho hge x
  | y => exact number_valueLabel_insert hs hold ho hge y
  | result index =>
    have hle := forall_update (P := fun _ n => π.store.values.size ≤ n) ho hfirst hge o' ho'
    exact (if_neg (fresh_ne_result hs hold hle index)).symm

/-- **The operations of the program read the new result** in place of the old one. -/
theorem labelled?_insert {a : Label OpId} (ha : ∀ o' index, a = .fresh o' index → o' ∈ done)
    {d : LabelledOp} (hd : π.labelled? done a = some d) (b : BlockId) :
    ∃ d', π.labelled? (insert o done) a = some d' ∧
      d'.operation (Function.update firstValue o first) b =
        (d.operation firstValue b).rename old ⟨first + ((π.code o).length - 1)⟩ := by
  cases a with
  | kept o' =>
    obtain ⟨entry, hentry, rfl⟩ := Option.map_eq_some_iff.1 hd
    refine ⟨_, by rw [labelled?, hentry]; rfl, ?_⟩
    simp only [LabelledOp.operation, Operation.rename, List.map_map]
    congr 1
    · exact List.map_congr_left fun v _ => number_valueLabel_insert hs hold ho hge v
    · cases entry.result? <;> rfl
  | fresh o' index =>
    have hmem := ha o' index rfl
    have hne : o' ≠ o := fun heq => ho (heq ▸ hmem)
    obtain ⟨entry, x, y, i, hentry, hoperands, hi, rfl⟩ := labelled?_fresh_iff.1 hd
    refine ⟨_, labelled?_fresh_iff.2 ⟨entry, x, y, i, hentry, hoperands, hi, rfl⟩, ?_⟩
    simp only [LabelledOp.operation, Operation.rename, List.map_map]
    congr 1
    · refine List.map_congr_left fun a _ => ?_
      simp only [Function.comp]
      rw [number_sourceLabel_insert hs hold ho hge hfirst (Finset.mem_insert_of_mem hmem),
        Function.update_of_ne hne]
      cases a <;> rfl
    · exact congrArg some (number_update fun _ heq => hne (Label.fresh.inj heq).1)

end Insert

/-! ## Stores in which a plan was carried out -/

/-- The plan was carried out for the operations `done` of a program that had the operations `ops`.
The code for them has the numbers of operations and values from `firstOp` and `firstValue` on. -/
structure CarriedOut (π : Plan) (p : Program) (ops : List OpId) (done : Finset OpId)
    (firstOp firstValue : OpId → Nat) (s : Store) : Prop where
  mutable : s.Mutable p
  inputs : p.inputs s = p.inputs π.store
  argTys : s.argTys p.entry = π.store.argTys p.entry
  size_ops : π.store.ops.size ≤ s.ops.size
  size_values : π.store.values.size ≤ s.values.size
  listed : p.ops s = .ok ((π.opLabels done ops).map (Label.number OpId.mk firstOp))
  entries : ∀ a ∈ π.opLabels done ops, ∃ d, π.labelled? done a = some d ∧
    s.ops[(a.number OpId.mk firstOp).index]? = some (d.operation firstValue p.entry)
  ops_ge : ∀ o ∈ done, π.store.ops.size ≤ firstOp o
  values_ge : ∀ o ∈ done, π.store.values.size ≤ firstValue o
  values_le : ∀ o ∈ done, firstValue o + (π.code o).length ≤ s.values.size
  /-- No two operations share the numbers of the values that their code creates. -/
  apart : ∀ o ∈ done, ∀ o' ∈ done, o ≠ o' → firstValue o + (π.code o).length ≤ firstValue o' ∨
    firstValue o' + (π.code o').length ≤ firstValue o
  nonempty : ∀ o ∈ done, 0 < (π.code o).length
  ready : ∀ o ∈ done, ∀ i ∈ π.code o, ∀ a ∈ i.operands, a.Ready (π.code o).length

variable {p : Program} {ops : List OpId} {firstOp firstValue : OpId → Nat} {s s' : Store}

theorem carriedOut_start (hs : π.store.Mutable p) (hv : π.store.Valid p ops)
    (firstOp firstValue : OpId → Nat) :
    π.CarriedOut p ops ∅ firstOp firstValue π.store := by
  have hvalue : ∀ v, π.valueLabel ∅ v = .kept v := by
    intro v
    unfold valueLabel
    split <;> simp
  have hlabels : π.opLabels ∅ ops = ops.map .kept := by
    rw [opLabels, List.map_eq_flatMap]
    exact List.flatMap_congr fun o _ => by simp
  constructor
  case mutable => exact hs
  case inputs | argTys => rfl
  case size_ops | size_values => exact Nat.le_refl _
  case listed =>
    rw [hlabels, List.map_map]
    exact hv.listed.trans (congrArg _ (List.map_id ops).symm)
  case entries =>
    intro a ha
    rw [hlabels] at ha
    obtain ⟨o, ho, rfl⟩ := List.mem_map.1 ha
    obtain ⟨d, hd, hfits⟩ := hv.entry ho
    refine ⟨_, by rw [labelled?, hd]; rfl, hd.trans (congrArg some ?_)⟩
    have hoperands : (d.operands.map (π.valueLabel ∅)).map (Label.number ValueId.mk firstValue) =
        d.operands := by
      rw [List.map_map]
      refine (List.map_congr_left fun v _ => ?_).trans (List.map_id _)
      rw [Function.comp, hvalue]
      rfl
    obtain ⟨opcode, operands, resultTy?, result?, parent?⟩ := d
    cases hfits.parent
    simp only [LabelledOp.operation, hoperands]
    cases result? <;> rfl
  all_goals
    intro o ho
    exact absurd ho (Finset.notMem_empty o)

namespace CarriedOut

variable {o : OpId} {op : BinaryOp} {t : Template} {d : Operation} {x y : ValueId} {w : Width}

/-- The entry of an operation of the program that is not replaced yet. -/
theorem entry_kept (h : π.CarriedOut p ops done firstOp firstValue s) (ho : o ∈ ops)
    (hnew : o ∉ done) (hd : π.store.ops[o.index]? = some d) :
    s.ops[o.index]? = some ⟨d.opcode,
      d.operands.map fun v => (π.valueLabel done v).number ValueId.mk firstValue, d.resultTy?,
      d.result?, some p.entry⟩ := by
  obtain ⟨a, ha, hentry⟩ := h.entries (.kept o) (kept_mem_opLabels.2 ⟨ho, hnew⟩)
  rw [labelled?, hd] at ha
  cases ha
  rw [show ((Label.kept o).number OpId.mk firstOp) = o from rfl] at hentry
  have hkept : Label.number ValueId.mk firstValue ∘ Label.kept = id := rfl
  simp only [LabelledOp.operation, List.map_map, Option.map_map, hkept, Option.map_id, id] at hentry
  exact hentry

/-- No other operation of the program has the number of one that is not replaced yet. -/
theorem notMem_number (h : π.CarriedOut p ops done firstOp firstValue s) {others : List OpId}
    (ho : o.index < π.store.ops.size) (hnot : o ∉ others) :
    o ∉ (π.opLabels done others).map (Label.number OpId.mk firstOp) := by
  intro hmem
  obtain ⟨a, ha, hnumber⟩ := List.mem_map.1 hmem
  cases a with
  | kept o' =>
    obtain rfl : o' = o := hnumber
    exact hnot (kept_mem_opLabels.1 ha).1
  | fresh o' index =>
    have hge := h.ops_ge o' (fresh_mem_opLabels.1 ha).2.1
    rw [← hnumber] at ho
    have : firstOp o' + index < π.store.ops.size := ho
    omega

section Replace

variable (h : π.CarriedOut p ops done firstOp firstValue s) (ho : o ∈ ops) (hnew : o ∉ done)
  (hd : π.store.ops[o.index]? = some d) (hoperands : d.operands = [x, y])
  (hty : d.resultTy? = some (.int w)) (hcode : π.code o = t.code w) (r : Replacement s p o op t)

include h ho hnew hd in
theorem result?_replaced : π.store.result? o = some r.old := by
  have hentry := Option.some.inj (r.entry_eq.symm.trans (h.entry_kept ho hnew hd))
  have hresult := r.result_eq
  rw [hentry] at hresult
  rw [result?_eq hd, hresult]

include h ho hnew hd hoperands hty hcode in
/-- The code is emitted for what takes the place of the operands. -/
theorem coded_replaced :
    s.Coded p.entry ((π.valueLabel done x).number ValueId.mk firstValue)
      ((π.valueLabel done y).number ValueId.mk firstValue) w (π.code o) r.expanded ∧
      0 < (π.code o).length ∧ r.new = ⟨s.values.size + ((π.code o).length - 1)⟩ := by
  have hentry := Option.some.inj (r.entry_eq.symm.trans (h.entry_kept ho hnew hd))
  have hwidth := r.resultTy
  rw [hentry] at hwidth
  obtain rfl : w = r.width := by simpa [hty] using hwidth
  have hpair := r.operands
  rw [hentry, hoperands] at hpair
  obtain ⟨hx, hy⟩ : (π.valueLabel done x).number ValueId.mk firstValue = r.x ∧
      (π.valueLabel done y).number ValueId.mk firstValue = r.y := by simpa using hpair
  rw [hx, hy, hcode]
  exact r.coded

include h hd in
/-- The operations of the program, with those of the code in the place of the replaced one. -/
theorem listing_replaced (hnodup : ops.Nodup) (ho : o ∈ ops) (hnew : o ∉ done)
    (hfresh : r.fresh.length = (π.code o).length) :
    r.listing = (π.opLabels (insert o done) ops).map
      (Label.number OpId.mk (Function.update firstOp o s.ops.size)) := by
  obtain ⟨front, back, rfl⟩ := List.append_of_mem ho
  obtain ⟨hfront, hback⟩ : o ∉ front ∧ o ∉ back := by
    have := List.nodup_middle.1 hnodup
    simpa using (List.nodup_cons.1 this).1
  have hlt := (Array.getElem?_eq_some_iff.1 hd).1
  have hlisted := Except.ok.inj (r.site.valid.listed.symm.trans h.listed)
  rw [opLabels_append, opLabels_cons, if_neg hnew, List.map_append, List.map_append,
    List.map_singleton] at hlisted
  -- both sides are taken apart at the one place of the operation
  obtain ⟨hbefore, -, hafter⟩ := (List.append_cons_inj_of_notMem (h.notMem_number hlt hfront)
    (h.notMem_number hlt hback)).1 hlisted.symm
  have hkept : ∀ others : List OpId,
      (π.opLabels done others).map (Label.number OpId.mk (Function.update firstOp o s.ops.size)) =
        (π.opLabels done others).map (Label.number OpId.mk firstOp) := by
    intro others
    refine List.map_congr_left fun a ha => number_update ?_
    rintro index rfl
    exact hnew (fresh_mem_opLabels.1 ha).2.1
  have hcodeOps : r.fresh = ((List.range (π.code o).length).map (Label.fresh o)).map
      (Label.number OpId.mk (Function.update firstOp o s.ops.size)) := by
    rw [r.emission.grown.fresh_eq, hfresh, List.range'_eq_map_range, List.map_map, List.map_map]
    refine List.map_congr_left fun k _ => ?_
    simp [Label.number]
  rw [opLabels_append, opLabels_cons, if_pos (Finset.mem_insert_self o done),
    opLabels_insert hfront, opLabels_insert hback, List.map_append, List.map_append, hkept, hkept,
    ← hcodeOps, Replacement.listing, ← hbefore, ← hafter, List.append_assoc]
  congr 2
  refine List.filter_eq_self.2 fun o' ho' => bne_iff_ne.2 ?_
  rintro rfl
  exact h.notMem_number hlt hback ho'

/-- The code reads its own results only. -/
theorem ready_of_coded {u v : ValueId} {code : List Instruction}
    (hcoded : s.Coded p.entry u v w code s') (ha : s'.OperandsAllocated) :
    ∀ i ∈ code, ∀ a ∈ i.operands, a.Ready code.length := by
  intro i hi a hmem
  obtain ⟨k, hk⟩ := List.getElem?_of_mem hi
  have hallocated := of_decide_eq_true (ha.of_mem (o := ⟨s.ops.size + k⟩) (hcoded.entries k i hk)
    (List.mem_map_of_mem hmem))
  cases a with
  | x | y => trivial
  | result index =>
    have hlt : s.values.size + index < s'.values.size := hallocated
    have := hcoded.size_values
    show index < code.length
    omega

include h ho hnew hd hoperands hty hcode in
/-- The entries of the code in the place of the replaced operation. -/
theorem entry_code (hs : π.store.Owned) {index : Nat} (hindex : index < (π.code o).length) :
    ∃ d', π.labelled? (insert o done) (.fresh o index) = some d' ∧
      r.result.ops[s.ops.size + index]? =
        some (d'.operation (Function.update firstValue o s.values.size) p.entry) := by
  have hold := h.result?_replaced ho hnew hd r
  obtain ⟨hcoded, -, hvalue⟩ := h.coded_replaced ho hnew hd hoperands hty hcode r
  have hi := List.getElem?_eq_getElem hindex
  have hne : s.ops.size + index ≠ o.index := by
    have hlt := (Array.getElem?_eq_some_iff.1 hd).1
    have hsize := h.size_ops
    omega
  refine ⟨_, labelled?_fresh_iff.2 ⟨d, x, y, _, hd, hoperands, hi, rfl⟩, ?_⟩
  rw [r.rebound.ops, if_neg hne, hcoded.entries index _ hi, Option.map_some, hvalue]
  simp only [LabelledOp.operation, Instruction.operation, Operation.rename, List.map_map, hty]
  congr 2
  · refine List.map_congr_left fun a _ => ?_
    simp only [Function.comp]
    rw [number_sourceLabel_insert hs hold hnew h.values_ge h.size_values
      (Finset.mem_insert_self o done), Function.update_self]
  · simp [Label.number]

include h ho hnew hd hoperands hty hcode in
/-- The entries of the other operations of the program, which read the new result in place of the
old one. -/
theorem entry_other (hs : π.store.Owned) {a : Label OpId} (ha : a ∈ π.opLabels done ops)
    (hne : a ≠ .kept o) :
    ∃ d', π.labelled? (insert o done) a = some d' ∧ r.result.ops[(a.number OpId.mk firstOp).index]? =
      some (d'.operation (Function.update firstValue o s.values.size) p.entry) := by
  have hold := h.result?_replaced ho hnew hd r
  obtain ⟨-, -, hvalue⟩ := h.coded_replaced ho hnew hd hoperands hty hcode r
  have hlt := (Array.getElem?_eq_some_iff.1 hd).1
  have hfresh : ∀ o' index, a = .fresh o' index → o' ∈ done := by
    rintro o' index rfl
    exact (fresh_mem_opLabels.1 ha).2.1
  have hnumber : a.number OpId.mk firstOp ≠ o := by
    cases a with
    | kept o' => exact fun heq => hne (congrArg Label.kept heq)
    | fresh o' index =>
      rintro rfl
      have hge := h.ops_ge o' (hfresh o' index rfl)
      have : firstOp o' + index < π.store.ops.size := hlt
      omega
  obtain ⟨d₁, hlabelled, hentry⟩ := h.entries a ha
  obtain ⟨d', hlabelled', hrename⟩ := labelled?_insert hs hold hnew h.values_ge h.size_values
    hfresh hlabelled p.entry
  refine ⟨d', hlabelled', ?_⟩
  rw [r.ops_of_ne hnumber hentry, hrename, hvalue]

include h ho hnew hd hoperands hty hcode in
/-- The entries of the operations of the program, with those of the code. -/
theorem entries_replaced (hs : π.store.Owned) :
    ∀ a ∈ π.opLabels (insert o done) ops, ∃ d', π.labelled? (insert o done) a = some d' ∧
      r.result.ops[(a.number OpId.mk (Function.update firstOp o s.ops.size)).index]? =
        some (d'.operation (Function.update firstValue o s.values.size) p.entry) := by
  intro a ha
  cases a with
  | kept o' =>
    obtain ⟨ho', hnew'⟩ := kept_mem_opLabels.1 ha
    obtain ⟨hne, hdone⟩ := not_or.1 (mt Finset.mem_insert.2 hnew')
    exact h.entry_other ho hnew hd hoperands hty hcode r hs (kept_mem_opLabels.2 ⟨ho', hdone⟩)
      fun heq => hne (Label.kept.inj heq)
  | fresh o' index =>
    obtain ⟨ho', hmem, hindex⟩ := fresh_mem_opLabels.1 ha
    by_cases heq : o' = o
    · subst heq
      rw [Label.number, Function.update_self]
      exact h.entry_code ho hnew hd hoperands hty hcode r hs hindex
    · have hdone := (Finset.mem_insert.1 hmem).resolve_left heq
      rw [number_update fun _ h => heq (Label.fresh.inj h).1]
      exact h.entry_other ho hnew hd hoperands hty hcode r hs
        (fresh_mem_opLabels.2 ⟨ho', hdone, hindex⟩) nofun

include h in
/-- The code for one operation more comes behind that for all others. -/
theorem apart_replaced (hnew : o ∉ done) : ∀ o₁ ∈ insert o done, ∀ o₂ ∈ insert o done, o₁ ≠ o₂ →
    Function.update firstValue o s.values.size o₁ + (π.code o₁).length ≤
        Function.update firstValue o s.values.size o₂ ∨
      Function.update firstValue o s.values.size o₂ + (π.code o₂).length ≤
        Function.update firstValue o s.values.size o₁ := by
  have hbehind : ∀ o₁ ∈ done, ∀ o₂ ∈ insert o done, o₁ ≠ o₂ →
      firstValue o₁ + (π.code o₁).length ≤ Function.update firstValue o s.values.size o₂ ∨
        Function.update firstValue o s.values.size o₂ + (π.code o₂).length ≤ firstValue o₁ := by
    intro o₁ ho₁
    exact forall_update (P := fun o₂ n => o₁ ≠ o₂ → firstValue o₁ + (π.code o₁).length ≤ n ∨
      n + (π.code o₂).length ≤ firstValue o₁) hnew (fun _ => .inl (h.values_le o₁ ho₁))
      (h.apart o₁ ho₁)
  refine forall_update (P := fun o₁ n => ∀ o₂ ∈ insert o done, o₁ ≠ o₂ →
    n + (π.code o₁).length ≤ Function.update firstValue o s.values.size o₂ ∨
      Function.update firstValue o s.values.size o₂ + (π.code o₂).length ≤ n) hnew ?_ hbehind
  intro o₂ ho₂ hdiffer
  have hmem₂ := (Finset.mem_insert.1 ho₂).resolve_left (Ne.symm hdiffer)
  rw [Function.update_of_ne (Ne.symm hdiffer)]
  exact .inr (h.values_le o₂ hmem₂)

include h hd hoperands hty hcode in
/-- **One operation more is replaced.** -/
theorem replace (hs : π.store.Owned) (hnodup : ops.Nodup) (ho : o ∈ ops) (hnew : o ∉ done) :
    π.CarriedOut p ops (insert o done) (Function.update firstOp o s.ops.size)
      (Function.update firstValue o s.values.size) r.result := by
  obtain ⟨hcoded, hpos, -⟩ := h.coded_replaced ho hnew hd hoperands hty hcode r
  have hfresh : r.fresh.length = (π.code o).length := by
    have := hcoded.size_values
    have := r.emission.grown.size_values
    omega
  have hvalues := r.size_values
  have hops := h.size_ops
  have hsize := h.size_values
  constructor
  case mutable => exact r.mutable
  case inputs =>
    rw [← h.inputs, Program.inputs, Program.inputs, r.rebound.owners.args, r.emission.grown.args]
  case argTys => rw [r.rebound.owners.argTys, r.emission.grown.argTys, h.argTys]
  case size_ops => exact hops.trans r.size_ops_le
  case size_values => omega
  case listed => rw [← h.listing_replaced hd r hnodup ho hnew hfresh, r.valid.listed]
  case entries => exact h.entries_replaced ho hnew hd hoperands hty hcode r hs
  case ops_ge => exact forall_update (P := fun _ n => π.store.ops.size ≤ n) hnew hops h.ops_ge
  case values_ge =>
    exact forall_update (P := fun _ n => π.store.values.size ≤ n) hnew hsize h.values_ge
  case values_le =>
    refine forall_update (P := fun o' n => n + (π.code o').length ≤ r.result.values.size) hnew
      (by omega) fun o' ho' => ?_
    have := h.values_le o' ho'
    omega
  case apart => exact h.apart_replaced hnew
  case nonempty => exact (Finset.forall_mem_insert _ _ _).2 ⟨hpos, h.nonempty⟩
  case ready =>
    exact (Finset.forall_mem_insert _ _ _).2
      ⟨ready_of_coded hcoded r.emission.site.allocated, h.ready⟩

end Replace

end CarriedOut

end Plan

end Mba
