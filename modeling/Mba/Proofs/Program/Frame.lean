import Mba.Program.Print
import Mba.Proofs.Building
import Mba.Proofs.Program.Execution

/-!
# Programs of a store that changes elsewhere

A part of a store is some of its operations, values and blocks. A program does what it does by the
entries and the chains of a part that they do not lead out of: the block of the program, what is
listed there, what the listed operations read and define. As long as a store changes elsewhere, the
program is printed, validated and run as before.

Results:
* `SameOn.print_eq`, `SameOn.validate_eq`, `SameOn.run_eq`: a program of a closed part is printed,
  validated and run in the same way.
* `Flow.closed_part`: the part of a program that flows is closed.
* `SameOn.valid`: a program stays valid in a consistent store that is the same on its part.
-/

namespace Mba.Store

/-- Some of the numbers of operations, values and blocks. -/
structure Part where
  op : OpId → Prop
  value : ValueId → Prop
  block : BlockId → Prop

/-- The stores hold the same under the numbers of a part: the same entries, and for values the same
chains as well. -/
structure SameOn (part : Part) (s s' : Store) : Prop where
  ops : ∀ o, part.op o → s'.ops[o.index]? = s.ops[o.index]?
  values : ∀ v, part.value v → s'.values[v.index]? = s.values[v.index]?
  uses : ∀ v, part.value v → s'.uses v = s.uses v
  blocks : ∀ b, part.block b → s'.blocks[b.index]? = s.blocks[b.index]?

/-- The entries of a part do not lead out of it. -/
structure Part.Closed (part : Part) (s : Store) : Prop where
  listed : ∀ b d, part.block b → s.blocks[b.index]? = some d →
    (∀ o ∈ d.ops, part.op o) ∧ ∀ v ∈ d.args, part.value v
  operands : ∀ o d, part.op o → s.ops[o.index]? = some d → ∀ v ∈ d.operands, part.value v
  result : ∀ o v, part.op o → s.result? o = some v → part.value v
  definer : ∀ v o ty, part.value v → s.values[v.index]? = some ⟨.result o, ty⟩ → part.op o

variable {part : Part} {s s' : Store} {p : Program}

theorem SameOn.refl (part : Part) (s : Store) : SameOn part s s :=
  ⟨fun _ _ => rfl, fun _ _ => rfl, fun _ _ => rfl, fun _ _ => rfl⟩

theorem SameOn.trans {s'' : Store} (h : SameOn part s s') (h' : SameOn part s' s'') :
    SameOn part s s'' where
  ops o ho := (h'.ops o ho).trans (h.ops o ho)
  values v hv := (h'.values v hv).trans (h.values v hv)
  uses v hv := (h'.uses v hv).trans (h.uses v hv)
  blocks b hb := (h'.blocks b hb).trans (h.blocks b hb)

theorem Part.Closed.inputs (hc : part.Closed s) (hp : part.block p.entry) :
    ∀ v ∈ p.inputs s, part.value v := by
  intro v hv
  rw [Program.inputs, args] at hv
  split at hv
  · next d hd => exact (hc.listed p.entry d hp hd).2 v hv
  · cases hv

theorem Part.Closed.ops (hc : part.Closed s) (hp : part.block p.entry) {ops : List OpId}
    (hops : p.ops s = .ok ops) : ∀ o ∈ ops, part.op o := by
  obtain ⟨d, hd, rfl⟩ := ops_eq_ok_iff.1 hops
  exact (hc.listed p.entry d hp hd).1

/-- What operations of a closed part read belongs to the part. -/
theorem Part.Closed.slots (hc : part.Closed s) {ops : List OpId} (hops : ∀ o ∈ ops, part.op o) :
    ∀ slot ∈ s.slots ops, part.value slot.2 := by
  intro slot hslot
  obtain ⟨ho, hread⟩ := mem_slots.1 hslot
  obtain ⟨d, hd, hv⟩ := Option.bind_eq_some_iff.1 hread
  exact hc.operands _ d (hops _ ho) hd _ (List.mem_of_getElem? hv)

/-! ## Reading the same -/

namespace SameOn

variable (h : SameOn part s s')
include h

theorem op_eq {o : OpId} (ho : part.op o) : s'.op o = s.op o := by
  rw [op, op, h.ops o ho]

theorem result?_eq {o : OpId} (ho : part.op o) : s'.result? o = s.result? o := by
  rw [result?, result?, h.ops o ho]

theorem valueTy_eq {v : ValueId} (hv : part.value v) : s'.valueTy v = s.valueTy v := by
  rw [valueTy, valueTy, value, value, h.values v hv]

theorem isAllocated_eq {v : ValueId} (hv : part.value v) :
    s'.isAllocated v = s.isAllocated v := by
  have hsome : ∀ s : Store, s.isAllocated v = s.values[v.index]?.isSome := by
    intro s
    by_cases hlt : v.index < s.values.size <;> simp [isAllocated, hlt]
  rw [hsome, hsome, h.values v hv]

theorem slot?_eq {use : Use} (huse : part.op use.user) : s'.slot? use = s.slot? use := by
  rw [slot?, slot?, h.ops _ huse]

theorem args_eq {b : BlockId} (hb : part.block b) : s'.args b = s.args b := by
  rw [args, args, h.blocks b hb]

theorem listed_eq (hb : part.block p.entry) : p.ops s' = p.ops s := by
  rw [Program.ops, Program.ops, block, block, h.blocks _ hb]

end SameOn

/-! ## Printing -/

theorem printInputs_congr {vs : List ValueId} (h : ∀ v ∈ vs, s'.valueTy v = s.valueTy v)
    (n : Numbering) : s'.printInputs vs n = s.printInputs vs n := by
  induction vs generalizing n with
  | nil => rfl
  | cons v rest ih =>
    rw [printInputs, printInputs, h v List.mem_cons_self]
    simp only [ih fun v' hv' => h v' (List.mem_cons_of_mem _ hv')]

theorem printOps_congr {ops : List OpId} (h : ∀ o ∈ ops, s'.op o = s.op o) (n : Numbering) :
    s'.printOps ops n = s.printOps ops n := by
  induction ops generalizing n with
  | nil => rfl
  | cons o rest ih =>
    rw [printOps, printOps, h o List.mem_cons_self]
    simp only [ih fun o' ho' => h o' (List.mem_cons_of_mem _ ho')]

/-- **A program of a closed part is printed in the same way.** -/
theorem SameOn.print_eq (h : SameOn part s s') (hc : part.Closed s) (hp : part.block p.entry) :
    p.print s' = p.print s := by
  have hinputs : p.inputs s' = p.inputs s := h.args_eq hp
  have hparams : ∀ n, s'.printInputs (p.inputs s) n = s.printInputs (p.inputs s) n :=
    printInputs_congr fun v hv => h.valueTy_eq (hc.inputs hp v hv)
  rw [Program.print, Program.print, hinputs, hparams, h.listed_eq hp]
  cases hops : p.ops s with
  | error f => rfl
  | ok ops =>
    have htexts : ∀ n, s'.printOps ops n = s.printOps ops n :=
      printOps_congr fun o ho => h.op_eq (hc.ops hp hops o ho)
    show (s.printInputs (p.inputs s) Numbering.start >>= fun found =>
        s'.printOps ops found.2 >>= _) = _
    simp only [htexts]
    rfl

/-! ## Running -/

theorem execute_congr {ops : List OpId} (h : ∀ o ∈ ops, s'.op o = s.op o) (env : Env) :
    s'.execute ops env = s.execute ops env := by
  induction ops generalizing env with
  | nil => rfl
  | cons o rest ih =>
    rw [execute, execute, h o List.mem_cons_self]
    simp only [ih fun o' ho' => h o' (List.mem_cons_of_mem _ ho')]

/-- **A program of a closed part runs in the same way.** -/
theorem SameOn.run_eq (h : SameOn part s s') (hc : part.Closed s) (hp : part.block p.entry)
    (args : List Scalar) : s'.run p args = s.run p args := by
  have hinputs : p.inputs s' = p.inputs s := h.args_eq hp
  have hbind : s'.bindArguments ((p.inputs s).zip args) 0 Table.empty =
      s.bindArguments ((p.inputs s).zip args) 0 Table.empty := by
    refine bindArguments_congr (fun v hv => h.valueTy_eq ?_) 0 _
    obtain ⟨pair, hpair, rfl⟩ := List.mem_map.1 hv
    exact hc.inputs hp _ (List.of_mem_zip hpair).1
  rw [run, run, hinputs, hbind, h.listed_eq hp]
  cases hops : p.ops s with
  | error f => rfl
  | ok ops =>
    have hexecute : ∀ env, s'.execute ops env = s.execute ops env :=
      execute_congr fun o ho => h.op_eq (hc.ops hp hops o ho)
    show (if _ then _ else s.bindArguments _ 0 _ >>= s'.execute ops) =
      (if _ then _ else s.bindArguments _ 0 _ >>= s.execute ops)
    rw [show s'.execute ops = s.execute ops from funext hexecute]

/-! ## Validating -/

namespace SameOn

variable (h : SameOn part s s') (hc : part.Closed s)
include h hc

theorem operandViolation?_eq {v : ValueId} (hv : part.value v) (defined : Marks) (use : Use) :
    s'.operandViolation? defined use v = s.operandViolation? defined use v := by
  rw [operandViolation?, operandViolation?, h.values v hv]
  cases hvalue : s.values[v.index]? with
  | none => rfl
  | some x =>
    obtain ⟨origin, ty⟩ := x
    cases origin with
    | argument b i => rfl
    | result definer =>
      have hplaced : s'.isPlaced definer = s.isPlaced definer := by
        rw [isPlaced, isPlaced, h.op_eq (hc.definer v definer ty hv hvalue)]
      simp only [Option.map_some, hplaced]

theorem operandViolations_eq {o : OpId} {d : Operation} (hd : ∀ v ∈ d.operands, part.value v)
    (defined : Marks) :
    (d.operands.zipIdx.mapM fun (v, i) => s'.operandViolation? defined ⟨o, i⟩ v) =
      d.operands.zipIdx.mapM fun (v, i) => s.operandViolation? defined ⟨o, i⟩ v :=
  mapM_congr fun slot hslot =>
    h.operandViolation?_eq hc (hd _ (List.fst_mem_of_mem_zipIdx hslot)) defined ⟨o, slot.2⟩

theorem opViolations_eq {o : OpId} (ho : part.op o) (defined : Marks) (isLast : Bool) :
    s'.opViolations p defined o isLast = s.opViolations p defined o isLast := by
  rw [opViolations, opViolations, h.op_eq ho]
  cases hd : s.op o with
  | error f => rfl
  | ok d =>
    have hvalues := hc.operands o d ho (op_eq_ok_iff.1 hd)
    have htypes : s'.typeDefect? d = s.typeDefect? d := by
      have hsame : s'.typeDefect? { d with operands := d.operands.map id } = s.typeDefect? d :=
        typeDefect?_rename d id fun v hv => by rw [id, h.values v (hvalues v hv)]
      rwa [List.map_id] at hsame
    simp only [bind, Except.bind, h.operandViolations_eq hc hvalues, htypes]

theorem flowViolations_eq {ops : List OpId} (hops : ∀ o ∈ ops, part.op o) (defined : Marks) :
    s'.flowViolations p ops defined = s.flowViolations p ops defined := by
  induction ops generalizing defined with
  | nil => rfl
  | cons o rest ih =>
    have ho := hops o List.mem_cons_self
    rw [flowViolations, flowViolations, h.opViolations_eq hc ho, h.result?_eq ho]
    simp only [ih fun o' ho' => hops o' (List.mem_cons_of_mem _ ho')]

omit hc in
theorem slots_eq {ops : List OpId} (hops : ∀ o ∈ ops, part.op o) : s'.slots ops = s.slots ops := by
  rw [slots, slots]
  refine List.flatMap_congr fun o ho => ?_
  rw [h.ops o (hops o ho)]

theorem chainDefects_eq (hp : part.block p.entry) {ops : List OpId}
    (hops : ∀ o ∈ ops, part.op o) : s'.chainDefects p ops = s.chainDefects p ops := by
  have hinputs : p.inputs s' = p.inputs s := h.args_eq hp
  have hdistinct : ∀ o ∈ (distinct (ops.map (·.index))).map OpId.mk, part.op o := fun o ho =>
    hops o (mem_distinct_ops.1 ho)
  have hslots := h.slots_eq hdistinct
  have hread := hc.slots hdistinct
  have hresults : ops.filterMap s'.result? = ops.filterMap s.result? :=
    List.filterMap_congr fun o ho => h.result?_eq (hops o ho)
  -- all values whose chains are looked at belong to the part
  have hvalues : ∀ v ∈ p.inputs s ++ (s.slots ((distinct (ops.map (·.index))).map OpId.mk)).map
      (·.2) ++ ops.filterMap s.result?, part.value v := by
    intro v hv
    rcases List.mem_append.1 hv with hv | hv
    · rcases List.mem_append.1 hv with hv | hv
      · exact hc.inputs hp v hv
      · obtain ⟨slot, hslot, rfl⟩ := List.mem_map.1 hv
        exact hread slot hslot
    · obtain ⟨o, ho, hresult⟩ := List.mem_filterMap.1 hv
      exact hc.result o v (hops o ho) hresult
  have hreads : ∀ use v, s'.reads (Marks.ofList (ops.map (·.index))) use v =
      s.reads (Marks.ofList (ops.map (·.index))) use v := by
    intro use v
    rw [Bool.eq_iff_iff, reads_iff, reads_iff]
    exact and_congr_right fun ho => by rw [h.slot?_eq (hops _ ho)]
  rw [chainDefects, chainDefects, hinputs, hslots, hresults]
  refine congrArg₂ (· ++ ·) (List.filterMap_congr fun slot hslot => ?_) ?_
  · dsimp only
    rw [h.isAllocated_eq (hread slot hslot), h.uses _ (hread slot hslot)]
  · have hchecked : ∀ v ∈ (distinct ((p.inputs s ++ (s.slots
        ((distinct (ops.map (·.index))).map OpId.mk)).map (·.2) ++ ops.filterMap s.result?).map
          (·.index))).map ValueId.mk, part.value v := fun v hv =>
      hvalues v (mem_distinct_values.1 hv)
    rw [List.filter_congr fun v hv => h.isAllocated_eq (hchecked v hv)]
    refine List.flatMap_congr fun v hv => ?_
    rw [h.uses v (hchecked v (List.mem_filter.1 hv).1)]
    exact List.filterMap_congr fun use _ => by rw [hreads]

theorem terminator?_eq (hp : part.block p.entry) : p.terminator? s' = p.terminator? s := by
  rw [Program.terminator?, Program.terminator?, h.listed_eq hp]
  cases hops : p.ops s with
  | error f => rfl
  | ok ops =>
    simp only [bind, Except.bind]
    cases hlast : ops.getLast? with
    | none => rfl
    | some o =>
      simp only [h.op_eq (hc.ops hp hops o (List.mem_of_getLast? hlast))]

/-- **A program of a closed part is validated in the same way.** -/
theorem validate_eq (hp : part.block p.entry) : s'.validate p = s.validate p := by
  have hinputs : p.inputs s' = p.inputs s := h.args_eq hp
  rw [validate, validate, hinputs, h.listed_eq hp, h.terminator?_eq hc hp]
  cases hops : p.ops s with
  | error f => rfl
  | ok ops =>
    have hmem := hc.ops hp hops
    simp only [bind, Except.bind, h.flowViolations_eq hc hmem, h.chainDefects_eq hc hp hmem]

end SameOn

/-! ## The part of a program -/

/-- The operations of a program, its inputs and their results, and its block. -/
def Part.ofProgram (s : Store) (p : Program) (ops : List OpId) : Part :=
  ⟨(· ∈ ops), s.Defines p ops, (· = p.entry)⟩

/-- **The part of a program that flows is closed.** -/
theorem Flow.closed_part (hs : s.Owned) {ops : List OpId} (hlisted : p.ops s = .ok ops)
    (hflow : s.Flow p [] ops) : (Part.ofProgram s p ops).Closed s where
  listed b d hb hd := by
    obtain rfl : b = p.entry := hb
    rw [Program.ops, block_eq_ok_iff.2 hd] at hlisted
    obtain rfl := Except.ok.inj hlisted
    refine ⟨fun o ho => ho, fun v hv => .inl ?_⟩
    rwa [Program.inputs, args, hd]
  operands o d ho hd v hv := by
    obtain ⟨d', hd', hfits⟩ := hflow.fits ho
    obtain rfl : d = d' := Option.some.inj (hd.symm.trans hd')
    exact hfits.operands v hv
  result o v ho hv := .inr ⟨o, ho, hv⟩
  definer v o ty hv hvalue := by
    have hresult := hs.origin_result o v ty hvalue
    rcases hv with hinput | ⟨o', ho', hresult'⟩
    · exact absurd hinput (hs.result_notMem_args hresult p.entry)
    · exact hs.result_inj hresult' hresult ▸ ho'

/-- The program defines the same values in a store that is the same on its part. -/
theorem SameOn.defines_iff {ops : List OpId} (h : SameOn (Part.ofProgram s p ops) s s')
    {v : ValueId} : s'.Defines p ops v ↔ s.Defines p ops v := by
  have hinputs : p.inputs s' = p.inputs s := h.args_eq rfl
  rw [Defines, Defines, hinputs]
  refine or_congr_right (exists_congr fun o => and_congr_right fun ho => ?_)
  rw [h.result?_eq ho]

/-- **A program stays valid** in a consistent store that is the same on its part. -/
theorem SameOn.valid {ops : List OpId} (h : SameOn (Part.ofProgram s p ops) s s')
    (hs : s.Consistent) (hs' : s'.Consistent) (hv : s.Valid p ops) : s'.Valid p ops := by
  have hvalidate : s'.validate p = .ok [] := by
    rw [h.validate_eq (hv.flow.closed_part hs.owned hv.listed) rfl]
    exact (validate_eq_nil_iff hs p).2 ⟨ops, hv⟩
  obtain ⟨ops', hv'⟩ := (validate_eq_nil_iff hs' p).1 hvalidate
  have hlisted : p.ops s' = p.ops s := h.listed_eq rfl
  rw [hv'.listed, hv.listed] at hlisted
  exact Except.ok.inj hlisted ▸ hv'

end Mba.Store
