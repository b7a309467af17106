import Mba.Proofs.Program.Valid
import Mba.Proofs.Store.Agreement

/-!
# What a validation reports

A validation walks the operations of a program and marks what they define. `Reports` says without
the marks what it reports of an operation, given those before it. Where listed operations have
entries and the values of the store are owned, the walk comes to its end, whatever is wrong with the
program, and reports just that.

Results:
* `operandViolation?_eq`: an operand is reported iff it is not marked.
* `exists_flowViolations`: the walk reports of each operation what `Reports` says, and nothing else.
* `nonempty_report`: a validation comes to its end, with a report in three parts.
* `Report.exists_lateSlot?_iff`: the slots that are reported as late.
* `ReachableEmpty.nonempty_report`: where all blocks are created empty, every program over a block
  has a report.
-/

namespace Mba

/-- The slot whose operand a violation says is not defined before its operation. -/
def Violation.lateSlot? : Violation → Option Use
  | .useBeforeDef use _ | .staleValue use _ => some use
  | .type _ _ _ | .parentMismatch _ _ | .misplacedReturn _ | .missingReturn | .useChain _ => none

namespace Store

variable {s : Store} {p : Program} {o : OpId} {d : Operation} {defined : Marks}
  {done ops : List OpId} {x : Violation}

/-! ## One operation -/

/-- What is reported of an operand that is not defined before its operation. -/
def lateOperand (s : Store) (use : Use) (v : ValueId) : Violation :=
  match s.values[v.index]?.map Value.origin with
  | some (.result definer) =>
    if (s.parent? definer).isSome then .useBeforeDef use v else .staleValue use v
  | _ => .useBeforeDef use v

theorem lateSlot?_lateOperand (s : Store) (use : Use) (v : ValueId) :
    (s.lateOperand use v).lateSlot? = some use := by
  unfold lateOperand
  split
  · split <;> rfl
  · rfl

/-- **An operand is reported iff it is not marked.** -/
theorem operandViolation?_eq (hs : s.Owned) (defined : Marks) (use : Use) (v : ValueId) :
    s.operandViolation? defined use v =
      .ok (if defined.contains v.index then none else some (s.lateOperand use v)) := by
  unfold operandViolation? lateOperand
  split
  · rfl
  cases hv : s.values[v.index]? with
  | none => rfl
  | some value =>
    obtain ⟨origin, ty⟩ := value
    cases origin with
    | argument b i => rfl
    | result definer =>
      -- the operation that defines a value has an entry
      obtain ⟨d, hd, -⟩ := Option.bind_eq_some_iff.1 (hs.origin_result definer v ty hv)
      simp only [Option.map_some, isPlaced, op_eq_ok_iff.2 hd, Except.map, parent?_eq hd, bind,
        Except.bind]
      split <;> rfl

/-- What a validation reports of an operation that stands behind the operations `done`. -/
inductive Reports (s : Store) (p : Program) (done : List OpId) (o : OpId) (isLast : Bool) :
    Violation → Prop
  | parent {d : Operation} (hd : s.ops[o.index]? = some d) (hparent : d.parent? ≠ some p.entry) :
      Reports s p done o isLast (.parentMismatch o d.parent?)
  | operand {i : Nat} {v : ValueId} (hread : s.slot? ⟨o, i⟩ = some v)
      (hlate : ¬ s.Defines p done v) : Reports s p done o isLast (s.lateOperand ⟨o, i⟩ v)
  | type {d : Operation} {defect : TypeDefect} (hd : s.ops[o.index]? = some d)
      (hdefect : s.typeDefect? d = some defect) :
      Reports s p done o isLast (.type o d.opcode defect)
  | misplaced {d : Operation} (hd : s.ops[o.index]? = some d) (hret : d.opcode = .ret)
      (hmore : isLast = false) : Reports s p done o isLast (.misplacedReturn o)

theorem mem_lateOperands (hd : s.ops[o.index]? = some d) (h : s.Marked p defined done) :
    (x ∈ d.operands.zipIdx.filterMap fun slot =>
        if defined.contains slot.1.index then none else some (s.lateOperand ⟨o, slot.2⟩ slot.1)) ↔
      ∃ i v, s.slot? ⟨o, i⟩ = some v ∧ ¬ s.Defines p done v ∧ x = s.lateOperand ⟨o, i⟩ v := by
  have hslot : ∀ i, s.slot? ⟨o, i⟩ = d.operands[i]? := fun i => by rw [slot?, hd, Option.bind_some]
  simp only [List.mem_filterMap, Prod.exists, List.mem_zipIdx_iff_getElem?, hslot]
  constructor
  · rintro ⟨v, i, hv, hsome⟩
    split at hsome
    · cases hsome
    · next hlate => exact ⟨i, v, hv, mt (h v).2 hlate, (Option.some.inj hsome).symm⟩
  · rintro ⟨i, v, hv, hlate, rfl⟩
    exact ⟨v, i, hv, if_neg (mt (h v).1 hlate)⟩

theorem exists_opViolations (hs : s.Owned) (hd : s.ops[o.index]? = some d)
    (h : s.Marked p defined done) (isLast : Bool) :
    ∃ found, s.opViolations p defined o isLast = .ok found ∧
      ∀ x, x ∈ found ↔ s.Reports p done o isLast x := by
  have hoperands : (d.operands.zipIdx.mapM fun slot =>
      s.operandViolation? defined ⟨o, slot.2⟩ slot.1) =
        .ok (d.operands.zipIdx.map fun slot =>
          if defined.contains slot.1.index then none else some (s.lateOperand ⟨o, slot.2⟩ slot.1)) := by
    rw [mapM_congr fun slot _ => operandViolation?_eq hs defined ⟨o, slot.2⟩ slot.1]
    exact List.mapM_pure
  refine ⟨_, bind_eq_ok.2 ⟨d, op_eq_ok_iff.2 hd, bind_eq_ok.2 ⟨_, hoperands, rfl⟩⟩, fun x => ?_⟩
  rw [List.filterMap_map, List.mem_append, List.mem_append, List.mem_append,
    Function.id_comp, mem_lateOperands hd h]
  constructor
  · rintro (((hparent | ⟨i, v, hread, hlate, rfl⟩) | htype) | hplace)
    · split at hparent
      · cases hparent
      · next hne =>
        obtain rfl := List.mem_singleton.1 hparent
        exact .parent hd hne
    · exact .operand hread hlate
    · obtain ⟨defect, hdefect, rfl⟩ := List.mem_map.1 htype
      exact .type hd (Option.mem_toList.1 hdefect)
    · split at hplace
      · next hret =>
        obtain rfl := List.mem_singleton.1 hplace
        obtain ⟨hret, hmore⟩ := Bool.and_eq_true_iff.1 hret
        exact .misplaced hd (of_decide_eq_true hret) (by simpa using hmore)
      · cases hplace
  · intro hx
    cases hx with
    | parent hd' hparent =>
      obtain rfl := Option.some.inj (hd.symm.trans hd')
      exact .inl (.inl (.inl (by simp [hparent])))
    | operand hread hlate => exact .inl (.inl (.inr ⟨_, _, hread, hlate, rfl⟩))
    | type hd' hdefect =>
      obtain rfl := Option.some.inj (hd.symm.trans hd')
      exact .inl (.inr (List.mem_map.2 ⟨_, Option.mem_toList.2 hdefect, rfl⟩))
    | misplaced hd' hret hmore =>
      obtain rfl := Option.some.inj (hd.symm.trans hd')
      exact .inr (by simp [hret, hmore])

/-- The slot of an operand is reported exactly if the operand is not known before its operation. -/
theorem exists_reports_lateSlot?_iff {isLast : Bool} {use : Use} :
    (∃ x, s.Reports p done o isLast x ∧ x.lateSlot? = some use) ↔
      use.user = o ∧ ∃ v, s.slot? use = some v ∧ ¬ s.Defines p done v := by
  constructor
  · rintro ⟨x, hx, hslot⟩
    cases hx with
    | operand hread hlate =>
      rw [lateSlot?_lateOperand] at hslot
      cases hslot
      exact ⟨rfl, _, hread, hlate⟩
    | parent _ _ => cases hslot
    | type _ _ => cases hslot
    | misplaced _ _ _ => cases hslot
  · rintro ⟨rfl, v, hread, hlate⟩
    exact ⟨_, .operand hread hlate, lateSlot?_lateOperand s use v⟩

/-! ## All operations -/

/-- **The walk comes to its end and reports of each operation what `Reports` says**, and nothing
else. -/
theorem exists_flowViolations (hs : s.Owned) (hops : ∀ o ∈ ops, ∃ d, s.ops[o.index]? = some d)
    (h : s.Marked p defined done) :
    ∃ found, s.flowViolations p ops defined = .ok found ∧ ∀ x, x ∈ found ↔
      ∃ before o after, ops = before ++ o :: after ∧
        s.Reports p (done ++ before) o after.isEmpty x := by
  induction ops generalizing done defined with
  | nil => exact ⟨[], rfl, fun x => by simp⟩
  | cons o rest ih =>
    obtain ⟨d, hd⟩ := hops o List.mem_cons_self
    obtain ⟨here, hhere, hreports⟩ := exists_opViolations hs hd h rest.isEmpty
    obtain ⟨later, hlater, hreports'⟩ :=
      ih (fun o' ho' => hops o' (List.mem_cons_of_mem _ ho')) (h.after o)
    refine ⟨here ++ later, bind_eq_ok.2 ⟨here, hhere, bind_eq_ok.2 ⟨later, hlater, rfl⟩⟩, fun x => ?_⟩
    rw [List.mem_append, hreports, hreports']
    constructor
    · rintro (hx | ⟨before, o', after, rfl, hx⟩)
      · exact ⟨[], o, rest, rfl, by rwa [List.append_nil]⟩
      · refine ⟨o :: before, o', after, rfl, ?_⟩
        rwa [List.append_assoc, List.singleton_append] at hx
    · rintro ⟨before, o', after, hsplit, hx⟩
      cases before with
      | nil =>
        cases hsplit
        rw [List.append_nil] at hx
        exact .inl hx
      | cons _ before =>
        cases hsplit
        refine .inr ⟨before, o', after, rfl, ?_⟩
        rwa [List.append_assoc, List.singleton_append]

/-- What a validation reports of a program with the given operations, in its three parts: what is
wrong with the operations, the missing return, and the defects of the chains. -/
structure Report (s : Store) (p : Program) (ops : List OpId) where
  flow : List Violation
  ending : List Violation
  chains : List ChainDefect
  validate : s.validate p = .ok (flow ++ ending ++ chains.map .useChain)
  mem_flow : ∀ x, x ∈ flow ↔ ∃ before o after, ops = before ++ o :: after ∧
    s.Reports p before o after.isEmpty x
  mem_ending : ∀ x, x ∈ ending ↔ x = .missingReturn ∧ ops.getLast?.bind s.opcode? ≠ some .ret
  chains_perm : chains.Perm (s.chainDefects p ops)

/-- **A validation gives a report**, whatever is wrong with the program. -/
theorem nonempty_report (hs : s.Owned) (hlisted : p.ops s = .ok ops)
    (hops : ∀ o ∈ ops, ∃ d, s.ops[o.index]? = some d) : Nonempty (s.Report p ops) := by
  obtain ⟨flow, hflow, hreports⟩ := exists_flowViolations hs hops (s.marked_inputs p)
  obtain ⟨last?, hlast?, hnone⟩ := exists_terminator? hlisted hops
  refine ⟨flow, _, _, bind_eq_ok.2 ⟨ops, hlisted, bind_eq_ok.2 ⟨flow, hflow,
    bind_eq_ok.2 ⟨last?, hlast?, rfl⟩⟩⟩, hreports, fun x => ?_, List.mergeSort_perm _ _⟩
  rw [hnone]
  by_cases hret : ops.getLast?.bind s.opcode? = some .ret <;> simp [hret]

namespace Report

variable (r : s.Report p ops)

/-- All violations of the report, in order. -/
def violations : List Violation :=
  r.flow ++ r.ending ++ r.chains.map .useChain

/-- **The slots that a validation reports as late** are those of operands that are not defined
before their operation. -/
theorem exists_lateSlot?_iff {use : Use} : (∃ x ∈ r.violations, x.lateSlot? = some use) ↔
    ∃ before after v, ops = before ++ use.user :: after ∧ s.slot? use = some v ∧
      ¬ s.Defines p before v := by
  constructor
  · rintro ⟨x, hx, hslot⟩
    rw [violations, List.mem_append, List.mem_append] at hx
    rcases hx with (hx | hx) | hx
    · obtain ⟨before, o, after, hlist, hreports⟩ := (r.mem_flow x).1 hx
      obtain ⟨rfl, v, hread, hlate⟩ := exists_reports_lateSlot?_iff.1 ⟨x, hreports, hslot⟩
      exact ⟨before, after, v, hlist, hread, hlate⟩
    · obtain ⟨rfl, -⟩ := (r.mem_ending x).1 hx
      cases hslot
    · obtain ⟨defect, -, rfl⟩ := List.mem_map.1 hx
      cases hslot
  · rintro ⟨before, after, v, hlist, hread, hlate⟩
    obtain ⟨x, hreports, hslot⟩ := exists_reports_lateSlot?_iff.2 ⟨rfl, v, hread, hlate⟩
    have hx := (r.mem_flow x).2 ⟨before, _, after, hlist, hreports⟩
    exact ⟨x, List.mem_append_left _ (List.mem_append_left _ hx), hslot⟩

end Report

/-! ## Reachable stores -/

/-- Where all blocks are created empty, a program lists what is placed in its block. -/
theorem ReachableEmpty.mem_ops_iff (h : s.ReachableEmpty) (hlisted : p.ops s = .ok ops) :
    o ∈ ops ↔ s.parent? o = some p.entry := by
  obtain ⟨target, htarget, rfl⟩ := ops_eq_ok_iff.1 hlisted
  rw [h.arranged.parent?_eq_some_iff h.reachable.housed]
  simp [htarget]

/-- **Where all blocks are created empty, a validation gives a report** of every program over a
block. -/
theorem ReachableEmpty.nonempty_report (h : s.ReachableEmpty) (hlisted : p.ops s = .ok ops) :
    Nonempty (s.Report p ops) := by
  refine Store.nonempty_report h.reachable.consistent.owned hlisted fun o ho => ?_
  obtain ⟨d, hd, -⟩ := Option.bind_eq_some_iff.1 ((h.mem_ops_iff hlisted).1 ho)
  exact ⟨d, hd⟩

end Store

end Mba
