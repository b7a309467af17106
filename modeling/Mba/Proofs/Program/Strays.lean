import Mathlib.Data.List.Count
import Mathlib.Data.List.Nodup
import Mba.Proofs.Program.Report

/-!
# Readers from elsewhere

The use chains of a store are shared by all its programs, and by operations that no program lists
any more. A validation reports the slots in the chains of the values that a program touches which
belong to operations that it does not list. Where the chains are exact, these are all the slots of
such operations that read one of the values, each once, and no slot of the program is missing.

Results:
* `nodup_chainDefects`: no defect of the chains is found twice.
* `Report.count_useChain`: a validation reports the defects of the chains as they are found.
* `ReachableEmpty.stray_report`: what a validation reports of the chains.
-/

namespace Mba.Store

variable {s : Store} {p : Program} {ops : List OpId}

theorem nodup_touched (s : Store) (p : Program) (ops : List OpId) : (s.touched p ops).Nodup :=
  ((nodup_distinct _).map fun _ _ => congrArg ValueId.index).filter _

theorem nodup_strays (hs : s.ChainsExact) (listed : Marks) (v : ValueId) :
    (s.strays listed v).Nodup := by
  have hstray : ∀ use defect, (if s.reads listed use v then none else some (.stray use v)) =
      some defect → ChainDefect.stray use v = defect := by
    intro use defect h
    split at h
    · cases h
    · exact Option.some.inj h
  refine (hs.nodup v).filterMap fun use use' defect h h' => ?_
  exact (ChainDefect.stray.inj ((hstray _ _ h).trans (hstray _ _ h').symm)).1

/-- **No defect of the chains is found twice.** -/
theorem nodup_chainDefects (hs : s.ChainsExact) (p : Program) (ops : List OpId) :
    (s.chainDefects p ops).Nodup := by
  rw [chainDefects_eq hs]
  refine List.nodup_flatMap.2 ⟨fun v _ => nodup_strays hs _ v, ?_⟩
  -- defects of different chains differ in their value
  refine (nodup_touched s p ops).imp fun hne defect hv hv' => ?_
  obtain ⟨use, rfl, -⟩ := (mem_strays hs).1 hv
  obtain ⟨use', heq, -⟩ := (mem_strays hs).1 hv'
  cases heq
  exact hne rfl

theorem Reports.ne_useChain {done : List OpId} {o : OpId} {isLast : Bool} {x : Violation}
    (h : s.Reports p done o isLast x) (defect : ChainDefect) : x ≠ .useChain defect := by
  rintro rfl
  generalize hx : Violation.useChain defect = x at h
  cases h with
  | operand _ _ =>
    have hslot := congrArg Violation.lateSlot? hx
    rw [lateSlot?_lateOperand] at hslot
    cases hslot
  | parent _ _ => cases hx
  | type _ _ => cases hx
  | misplaced _ _ _ => cases hx

/-- **A validation reports the defects of the chains as they are found**, whatever else is wrong. -/
theorem Report.count_useChain (r : s.Report p ops) (defect : ChainDefect) :
    r.violations.count (.useChain defect) = (s.chainDefects p ops).count defect := by
  -- the operations and the ending have no such violations
  have hfront : .useChain defect ∉ r.flow ++ r.ending := by
    intro hmem
    rcases List.mem_append.1 hmem with hmem | hmem
    · obtain ⟨before, o, after, -, hreports⟩ := (r.mem_flow _).1 hmem
      exact hreports.ne_useChain defect rfl
    · cases ((r.mem_ending _).1 hmem).1
  rw [violations, List.count_append, List.count_eq_zero.2 hfront, Nat.zero_add,
    List.count_map_of_injective _ _ fun _ _ => Violation.useChain.inj, r.chains_perm.count_eq]

/-- **What a validation reports of the chains**, where all blocks are created empty: one violation
for each slot of an operation that the program does not list, because it is placed nowhere or in
another block, if the slot reads a value that the program touches. It never misses a slot in a
chain. -/
theorem ReachableEmpty.stray_report (h : s.ReachableEmpty) (hlisted : p.ops s = .ok ops) :
    ∃ violations, s.validate p = .ok violations ∧
      (∀ defect, violations.count (.useChain defect) ≤ 1 ∧
        (.useChain defect ∈ violations ↔ ∃ o i v, defect = .stray ⟨o, i⟩ v ∧
          s.isAllocated v = true ∧ s.Touches p ops v ∧ (o ∉ ops ∧ s.parent? o ≠ some p.entry) ∧
          s.slot? ⟨o, i⟩ = some v)) ∧
      ∀ use v, .useChain (.unlisted use v) ∉ violations := by
  have hchains := h.reachable.consistent.chains
  obtain ⟨r⟩ := h.nonempty_report hlisted
  have hmem : ∀ defect, .useChain defect ∈ r.violations ↔ ∃ use v, defect = .stray use v ∧
      s.isAllocated v = true ∧ s.Touches p ops v ∧ use.user ∉ ops ∧ s.slot? use = some v := by
    intro defect
    rw [← List.count_pos_iff, r.count_useChain, List.count_pos_iff]
    exact mem_chainDefects hchains
  refine ⟨r.violations, r.validate, fun defect => ⟨?_, (hmem defect).trans ⟨?_, ?_⟩⟩,
    fun use v hunlisted => ?_⟩
  · rw [r.count_useChain]
    exact List.nodup_iff_count_le_one.1 (nodup_chainDefects hchains p ops) defect
  · rintro ⟨⟨o, i⟩, v, rfl, hallocated, htouches, ho, hread⟩
    exact ⟨o, i, v, rfl, hallocated, htouches, ⟨ho, mt (h.mem_ops_iff hlisted).2 ho⟩, hread⟩
  · rintro ⟨o, i, v, rfl, hallocated, htouches, ⟨ho, -⟩, hread⟩
    exact ⟨⟨o, i⟩, v, rfl, hallocated, htouches, ho, hread⟩
  · obtain ⟨_, _, heq, -⟩ := (hmem _).1 hunlisted
    cases heq

theorem stray_report_moved :
    ∃ violations, movedStore.validate ⟨"moved", ⟨0⟩⟩ = .ok violations ∧
      .useChain (.stray ⟨⟨0⟩, 1⟩ ⟨0⟩) ∈ violations ∧ .useChain (.stray ⟨⟨3⟩, 0⟩ ⟨0⟩) ∈ violations ∧
      .useChain (.stray ⟨⟨1⟩, 0⟩ ⟨2⟩) ∉ violations := by
  obtain ⟨violations, hok, hreport, -⟩ := ReachableEmpty.stray_report reachableEmpty_movedStore
    (show (⟨"moved", ⟨0⟩⟩ : Program).ops movedStore = .ok [⟨1⟩, ⟨2⟩] by decide)
  refine ⟨violations, hok, (hreport _).2.2 ?_, (hreport _).2.2 ?_, fun hmem => ?_⟩
  · exact ⟨⟨0⟩, 1, ⟨0⟩, rfl, by decide, .inl (.inl (by decide)), by decide, by decide⟩
  · exact ⟨⟨3⟩, 0, ⟨0⟩, rfl, by decide, .inl (.inl (by decide)), by decide, by decide⟩
  · obtain ⟨o, i, v, heq, -, -, ⟨ho, -⟩, -⟩ := (hreport _).2.1 hmem
    cases heq
    exact ho (by decide)

end Mba.Store
