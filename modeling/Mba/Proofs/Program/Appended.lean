import Mba.Proofs.Program.Frame

/-!
# Appending operations

A program grows by well-typed operations that are emitted at its end, each over values known behind
those before it. If the program was created in a store that held other programs, all of these stay
as they are: no operation of the new program reads anything of theirs. Nor do they read anything of
the new program, because its values have numbers that were not given away before.

Results:
* `Appended.built`: a program under construction stays in order.
* `Appended.nodup`: no operation is listed twice.
* `Appended.apart`: what the store held before the program was created stays as it is.
* `Apart.closed`: the values of the program are read by its own operations only.
-/

namespace Mba.Store

variable {s s' s'' s₀ : Store} {p : Program} {done done' : List OpId}

/-- Well-typed operations are emitted one after another at the end of a program, each over values
known behind those before it. -/
inductive Appended (p : Program) : Store → List OpId → Store → List OpId → Prop
  | refl (s : Store) (done : List OpId) : Appended p s done s done
  | step {s s' s'' : Store} {done done' : List OpId} {draft : Draft}
      (reads : ∀ v ∈ draft.operands, s.Defines p done v)
      (typed : WellTyped s draft.opcode draft.operands draft.resultTy?)
      (emitted : s.Emitted p.entry (done ++ [⟨s.ops.size⟩]) draft s')
      (more : Appended p s' (done ++ [⟨s.ops.size⟩]) s'' done') : Appended p s done s'' done'

/-- **A program under construction stays in order** when operations are appended. -/
theorem Appended.built {start : Nat} (h : Appended p s done s' done') (hs : s.Built p start done) :
    s'.Built p start done' := by
  induction h with
  | refl s done => exact hs
  | step reads typed emitted _ ih => exact ih (hs.emitted reads typed emitted)

/-- **No operation is listed twice** when operations are appended. -/
theorem Appended.nodup (h : Appended p s done s' done') (hnodup : done.Nodup)
    (hlt : ∀ o ∈ done, o.index < s.ops.size) : done'.Nodup := by
  induction h with
  | refl s done => exact hnodup
  | @step s s' s'' done done' draft reads typed emitted _ ih =>
    have hsize : s'.ops.size = s.ops.size + 1 := by rw [emitted.ops, Array.size_push]
    refine ih ?_ fun o ho => ?_
    · refine List.nodup_append.2 ⟨hnodup, List.nodup_cons.2 ⟨List.not_mem_nil, .nil⟩, ?_⟩
      rintro o ho o' ho' rfl
      have := hlt o ho
      rw [List.mem_singleton.1 ho'] at this
      exact Nat.lt_irrefl _ this
    · rcases List.mem_append.1 ho with hold | hself
      · have := hlt o hold
        omega
      · rw [List.mem_singleton.1 hself]
        exact hsize ▸ Nat.lt_succ_self _

/-! ## What is left alone -/

/-- All that a store holds. -/
def Part.all (s : Store) : Part :=
  ⟨fun o => o.index < s.ops.size, fun v => s.isAllocated v = true, fun b => b.index < s.blocks.size⟩

/-- **Emitting an operation outside of a part**, and over values outside of it, leaves the part as
it is. -/
theorem Emitted.sameOn {part : Part} {b : BlockId} {listing : List OpId} {draft : Draft}
    (he : s.Emitted b listing draft s') (hop : ¬ part.op ⟨s.ops.size⟩)
    (hvalue : ¬ part.value ⟨s.values.size⟩) (hblock : ¬ part.block b)
    (hreads : ∀ v ∈ draft.operands, ¬ part.value v) : SameOn part s s' where
  ops o ho := by
    have hne : o.index ≠ s.ops.size := by
      rintro heq
      exact hop (heq ▸ ho)
    rw [he.getElem?_ops, if_neg hne]
  values v hv := by
    have hne : v.index ≠ s.values.size := by
      rintro heq
      exact hvalue (heq ▸ hv)
    rw [he.getElem?_values, if_neg hne]
  uses v hv := by
    rw [he.uses, slotsReading_eq_nil fun hmem => hreads v hmem hv, List.append_nil]
  blocks b' hb' := by
    have hne : b.index ≠ b'.index := by
      intro heq
      cases b; cases b'
      exact hblock (by cases heq; exact hb')
    rw [he.blocks, Array.getElem?_modify, if_neg hne]

theorem sameOn_createBlock (s : Store) (tys : List Ty) :
    SameOn (Part.all s) s (s.createBlock tys []).2 where
  ops _ _ := rfl
  values v hv := by
    rw [getElem?_values_createBlock, if_pos (of_decide_eq_true hv)]
  uses _ _ := rfl
  blocks b hb := by
    have hb' : b.index ≠ s.blocks.size := Nat.ne_of_lt hb
    simp [createBlock, Array.getElem?_push, hb']

/-- A program that was created in the store `s₀` and has grown since: all that `s₀` held is as it
was, and the program has operations and a block of its own. -/
structure Apart (s₀ s : Store) (p : Program) (done : List OpId) : Prop where
  same : SameOn (Part.all s₀) s₀ s
  entry : s₀.blocks.size ≤ p.entry.index
  ops : ∀ o ∈ done, s₀.ops.size ≤ o.index

namespace Apart

theorem size_ops_le (h : Apart s₀ s p done) : s₀.ops.size ≤ s.ops.size := by
  by_contra hlt
  have hsame := h.same.ops ⟨s.ops.size⟩ (Nat.lt_of_not_le hlt)
  simp at hsame
  omega

theorem size_values_le (h : Apart s₀ s p done) : s₀.values.size ≤ s.values.size := by
  by_contra hlt
  have hsame := h.same.values ⟨s.values.size⟩ (decide_eq_true (Nat.lt_of_not_le hlt))
  simp at hsame
  omega

/-- **The values of the program are new.** -/
theorem not_isAllocated (h : Apart s₀ s p done) (hs₀ : s₀.Owned) (hs : s.Owned) {v : ValueId}
    (hv : s.Defines p done v) : ¬ s₀.isAllocated v = true := by
  intro hold
  have hsame := h.same.values v hold
  rcases hv with hinput | ⟨o, ho, hresult⟩
  · obtain ⟨i, hi⟩ := List.getElem?_of_mem hinput
    obtain ⟨ty, -, hvalue⟩ := hs.arg_origin p.entry i v hi
    have harg := hs₀.origin_arg p.entry i v ty (hsame.symm.trans hvalue)
    have hnone : s₀.blocks[p.entry.index]? = none := Array.getElem?_eq_none h.entry
    simp [args, hnone] at harg
  · obtain ⟨ty, -, hvalue⟩ := hs.result_origin o v hresult
    have hresult₀ := hs₀.origin_result o v ty (hsame.symm.trans hvalue)
    have hnone : s₀.ops[o.index]? = none := Array.getElem?_eq_none (h.ops o ho)
    simp [result?, hnone] at hresult₀

/-- **The values of the program are read by its own operations only.** -/
theorem closed (h : Apart s₀ s p done) (hs₀ : s₀.Owned) (ha : s₀.OperandsAllocated)
    (hb : s.Built p s₀.ops.size done) (v : ValueId) (use : Use) (hv : s.Defines p done v)
    (hread : s.slot? use = some v) : use.user ∈ done := by
  by_cases hold : use.user.index < s₀.ops.size
  · rw [h.same.slot?_eq hold] at hread
    exact absurd (ha use v hread) (h.not_isAllocated hs₀ hb.consistent.owned hv)
  · obtain ⟨d, hd, -⟩ := Option.bind_eq_some_iff.1 hread
    exact hb.fresh use.user (Nat.le_of_not_lt hold) (Array.getElem?_eq_some_iff.1 hd).1

end Apart

/-- **What the store held before stays as it is** when operations are appended. -/
theorem Appended.apart (h : Appended p s done s' done') (hs₀ : s₀.Owned)
    (hs : s.Built p s₀.ops.size done) (hapart : Apart s₀ s p done) : Apart s₀ s' p done' := by
  induction h with
  | refl s done => exact hapart
  | @step s s₁ s' done done' draft reads typed emitted _ ih =>
    have hops := hapart.size_ops_le
    have hvalues := hapart.size_values_le
    refine ih (hs.emitted reads typed emitted)
      ⟨hapart.same.trans (emitted.sameOn ?_ ?_ ?_ fun v hv => ?_), hapart.entry, ?_⟩
    · exact Nat.not_lt.2 hops
    · show ¬ decide _ = true
      simpa using hvalues
    · exact Nat.not_lt.2 hapart.entry
    · exact hapart.not_isAllocated hs₀ hs.consistent.owned (reads v hv)
    · intro o ho
      rcases List.mem_append.1 ho with hold | hnew
      · exact hapart.ops o hold
      · obtain rfl := List.mem_singleton.1 hnew
        exact hops

theorem apart_create (s : Store) (name : String) (tys : List Ty) :
    Apart s (s.createBlock tys []).2 ⟨name, ⟨s.blocks.size⟩⟩ [] :=
  ⟨s.sameOn_createBlock tys, Nat.le_refl _, nofun⟩

end Mba.Store
