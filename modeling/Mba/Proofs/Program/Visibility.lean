import Mba.Proofs.Mutation.Site
import Mba.Proofs.Program.Report

/-!
# What a builder accepts and what a validation reports

A validation walks a program and marks the values that are defined. A builder before an operation
looks for what defines a value, and compares places in the block. Where all blocks are created
empty, both come to the same: an operand of a listed operation is reported as late exactly if a
builder before the operation does not accept it, whether the program is valid or not.

Results:
* `ReachableEmpty.split`: a program is taken apart at any of its operations, in one way.
* `ReachableEmpty.adopt_report`: the operands that are reported are those that are not accepted.
-/

namespace Mba.Store

variable {s : Store} {p : Program} {o : OpId} {ops before after : List OpId}

/-- **A program can be taken apart at any of its operations.** -/
theorem ReachableEmpty.split (h : s.ReachableEmpty) (hlisted : p.ops s = .ok (before ++ o :: after)) :
    s.Split p o before after ∧ o ∉ after := by
  obtain ⟨target, htarget, hops⟩ := ops_eq_ok_iff.1 hlisted
  have hnodup := h.arranged.nodup p.entry target htarget
  rw [hops, List.nodup_middle, List.nodup_cons, List.mem_append, not_or] at hnodup
  refine ⟨⟨hlisted, hnodup.1.1, fun o' ho' => ?_⟩, hnodup.1.2⟩
  exact (h.mem_ops_iff hlisted).1 (List.mem_append_left _ ho')

/-- **The operands that are reported are those that are not accepted**, where all blocks are created
empty. A builder can stand before each listed operation, and a validation comes to its end. An
operand of the operation is refused by the builder exactly if the validation reports its slot, as
not defined before its use or as the result of an operation that is placed nowhere. -/
theorem ReachableEmpty.adopt_report (h : s.ReachableEmpty) (hlisted : p.ops s = .ok ops)
    (ho : o ∈ ops) :
    Builder.pointBefore s o = .ok (.before p.entry o) ∧
      ∃ violations, s.validate p = .ok violations ∧ ∀ i v, s.slot? ⟨o, i⟩ = some v →
        let adopted := (Builder.start s (.before p.entry o)).adopt v
        (adopted = .ok v ∨ adopted = Attempt.fail (.notVisible v)) ∧
          (adopted = Attempt.fail (.notVisible v) ↔
            ∃ x ∈ violations, x.lateSlot? = some ⟨o, i⟩) := by
  refine ⟨pointBefore_eq_ok ((h.mem_ops_iff hlisted).1 ho), ?_⟩
  obtain ⟨before, after, rfl⟩ := List.append_of_mem ho
  obtain ⟨hsplit, hafter⟩ := h.split hlisted
  obtain ⟨r⟩ := h.nonempty_report hlisted
  refine ⟨r.violations, r.validate, fun i v hread => ?_⟩
  -- the operation is listed once, so it is reported where it was taken apart
  have hreported : (∃ x ∈ r.violations, x.lateSlot? = some ⟨o, i⟩) ↔ ¬ s.Defines p before v := by
    rw [r.exists_lateSlot?_iff]
    constructor
    · rintro ⟨before', after', v', hlist, hread', hlate⟩
      obtain ⟨rfl, -, -⟩ := (List.append_cons_inj_of_notMem hsplit.notMem hafter).1 hlist
      rwa [Option.some.inj (hread.symm.trans hread')]
    · exact fun hlate => ⟨before, after, v, rfl, hread, hlate⟩
  rw [hreported, Builder.start]
  rcases hsplit.adopt h.reachable.consistent.owned v [] with ⟨hv, hadopt⟩ | ⟨hv, hadopt⟩
  · rw [hadopt]
    exact ⟨.inl rfl, nofun, fun hnot => absurd hv hnot⟩
  · rw [hadopt]
    exact ⟨.inr rfl, iff_of_true rfl hv⟩

theorem adopt_report_moved :
    ∃ violations, movedStore.validate ⟨"moved", ⟨0⟩⟩ = .ok violations ∧
      (∃ x ∈ violations, x.lateSlot? = some ⟨⟨1⟩, 0⟩) ∧
      (∃ x ∈ violations, x.lateSlot? = some ⟨⟨1⟩, 1⟩) ∧
      ¬ ∃ x ∈ violations, x.lateSlot? = some ⟨⟨2⟩, 0⟩ := by
  have hlisted : (⟨"moved", ⟨0⟩⟩ : Program).ops movedStore = .ok [⟨1⟩, ⟨2⟩] := by decide
  obtain ⟨-, violations, hok, hmul⟩ :=
    ReachableEmpty.adopt_report reachableEmpty_movedStore hlisted (show ⟨1⟩ ∈ _ by decide)
  obtain ⟨-, violations', hok', hret⟩ :=
    ReachableEmpty.adopt_report reachableEmpty_movedStore hlisted (show ⟨2⟩ ∈ _ by decide)
  obtain rfl : violations = violations' := Except.ok.inj (hok.symm.trans hok')
  refine ⟨violations, hok, (hmul 0 ⟨2⟩ (by decide)).2.1 (by rfl),
    (hmul 1 ⟨4⟩ (by decide)).2.1 (by rfl), fun hlate => ?_⟩
  cases (hret 0 ⟨3⟩ (by decide)).2.2 hlate

end Mba.Store
