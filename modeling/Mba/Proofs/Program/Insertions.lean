import Mba.Proofs.Mutation.Site
import Mba.Proofs.Program.Calls
import Mba.Proofs.Program.Soundness

/-!
# Calls before an operation

A call of a builder checks the types of its operands, and leaves it to the caller that they are
defined before the place. For a builder before an operation of a valid program it suffices that each
operand is a value that the builder accepted or one that an earlier call gave. However many calls
are made in this way, and whichever of them fail, the program stays valid. It lists what was emitted
directly before the operation, in the order of the calls.

Results:
* `StandsBefore.call_outcome`: what one call does.
* `Session.standsBefore`: what all calls so far have done.
* `Store.Reachable.session_spec`: the program after the calls.
-/

namespace Mba

open Store

namespace Builder

/-- A call that gives a value, over values that are known. -/
structure Call.Over (call : Call) (known : List ValueId) (action : Edit Builder BuildError ValueId) :
    Prop where
  action : call.action? = some action
  operands : ∀ v ∈ call.operands, v ∈ known

/-- What a builder at a place of a store comes to by calls over the values `known`, which are those
that it accepted and those that the calls gave. -/
inductive Session (s : Store) (point : InsertPoint) : Builder → List ValueId → Prop
  | start : Session s point (Builder.start s point) []
  | adopted {b : Builder} {known : List ValueId} {v v' : ValueId} (h : Session s point b known)
      (hok : b.adopt v = .ok v') : Session s point b (v' :: known)
  | done {b b' : Builder} {known : List ValueId} {call : Call}
      {action : Edit Builder BuildError ValueId} {v : ValueId} (h : Session s point b known)
      (hover : call.Over known action) (hdone : action b = .done v b') :
      Session s point b' (v :: known)
  | failed {b b' : Builder} {known : List ValueId} {call : Call}
      {action : Edit Builder BuildError ValueId} {e : BuildError} (h : Session s point b known)
      (hover : call.Over known action) (hfailed : action b = .failed e b') : Session s point b' known

/-- The call has added one operation, which defines `v` and was emitted last. -/
structure Call.Extends (call : Call) (b : Builder) (v : ValueId) (b' : Builder) : Prop where
  ops : ∃ d, b'.store.ops = b.store.ops.push d ∧ d.operands = call.operands ∧ d.result? = some v
  point : b'.point = b.point
  emitted : b'.emitted = b.emitted ++ [⟨b.store.ops.size⟩]

/-- The builder stands before the anchor of a site, where it has emitted all that is behind
`before`, and the values `known` are defined there. -/
structure StandsBefore (b : Builder) (p : Program) (anchor : OpId) (before after : List OpId)
    (known : List ValueId) : Prop where
  point : b.point = .before p.entry anchor
  site : b.store.Site p anchor (before ++ b.emitted) after
  known : ∀ v ∈ known, b.store.Defines p (before ++ b.emitted) v

variable {s : Store} {p : Program} {anchor : OpId} {before after : List OpId} {b b' : Builder}
  {known : List ValueId} {v v' : ValueId} {call : Call} {action : Edit Builder BuildError ValueId}

theorem standsBefore_start (h : s.Site p anchor before after) :
    (Builder.start s (.before p.entry anchor)).StandsBefore p anchor before after [] where
  point := rfl
  site := by rwa [Builder.start, List.append_nil]
  known := nofun

namespace StandsBefore

variable (h : b.StandsBefore p anchor before after known)
include h

/-- A value that the builder accepts is defined before the anchor. -/
theorem adopted (hok : b.adopt v = .ok v') : b.StandsBefore p anchor before after (v' :: known) := by
  obtain ⟨store, point, emitted⟩ := b
  obtain ⟨rfl, hsite, hknown⟩ := h
  refine ⟨rfl, hsite, List.forall_mem_cons.2 ⟨?_, hknown⟩⟩
  rcases hsite.split.adopt hsite.consistent.owned v emitted with ⟨hv, hadopt⟩ | ⟨-, hadopt⟩
  · rw [hadopt] at hok
    cases hok
    exact hv
  · rw [hadopt] at hok
    cases hok

/-- **A call over values that are known** fails and changes nothing, or adds an operation before the
anchor. -/
theorem call_outcome (hover : call.Over known action) :
    (∃ e, action b = .failed e b) ∨ ∃ v b', action b = .done v b' ∧ call.Extends b v b' ∧
      b'.StandsBefore p anchor before after (v :: known) := by
  obtain ⟨store, point, emitted⟩ := b
  obtain ⟨rfl, hsite, hknown⟩ := h
  dsimp only at hsite hknown
  have hdefines : ∀ v ∈ call.operands, store.Defines p (before ++ emitted) v := fun v hv =>
    hknown v (hover.operands v hv)
  obtain ⟨target, htarget, hplace⟩ := hsite.split.exists_places ⟨store.ops.size⟩
  rcases Call.action_outcome hsite.consistent (.before p.entry anchor) htarget hplace hover.action
      (fun v hv => (hdefines v hv).isAllocated hsite.consistent.owned) emitted with
    hfailed | ⟨opcode, ty, s', hdone, he, htyped⟩
  · exact .inl hfailed
  · have hsite' := hsite.emitted hdefines (typeDefect?_eq_none_iff_wellTyped.2 htyped) he
    rw [List.append_assoc] at hsite'
    refine .inr ⟨_, _, hdone, ⟨⟨_, he.ops, rfl, rfl⟩, rfl, rfl⟩, rfl, hsite', ?_⟩
    refine List.forall_mem_cons.2 ⟨.inr ⟨⟨store.ops.size⟩, by simp, ?_⟩, fun v hv => ?_⟩
    · rw [he.result?, if_pos rfl]
      rfl
    · refine he.defines_of_defines (fun o ho => ?_) (hknown v hv)
      rw [← List.append_assoc]
      exact List.mem_append_left _ ho

end StandsBefore

/-- **What all calls so far have done.** -/
theorem Session.standsBefore (hsite : s.Site p anchor before after)
    (h : Session s (.before p.entry anchor) b known) :
    b.StandsBefore p anchor before after known := by
  induction h with
  | start => exact standsBefore_start hsite
  | adopted _ hok ih => exact ih.adopted hok
  | done _ hover hdone ih =>
    rcases ih.call_outcome hover with ⟨e, hfailed⟩ | ⟨v, b₁, hdone', -, hstands⟩
    · cases hdone.symm.trans hfailed
    · cases hdone.symm.trans hdone'
      exact hstands
  | failed _ hover hfailed ih =>
    rcases ih.call_outcome hover with ⟨e, hfailed'⟩ | ⟨v, b₁, hdone, -⟩
    · cases hfailed.symm.trans hfailed'
      exact ih
    · cases hfailed.symm.trans hdone

end Builder

open Builder

variable {s : Store} {p : Program} {o : OpId} {ops : List OpId}

/-- **The program after calls before one of its operations**, over values that the builder accepted
or that earlier calls gave. The program was valid and is still. The operations that were emitted
stand directly before the operation, in order, and the others are where they were. Whatever is
called next in this way fails and changes nothing, or adds one operation. -/
theorem Store.Reachable.session_spec (hs : s.Reachable) (ha : s.OperandsAllocated)
    (hv : s.validate p = .ok []) (hlisted : p.ops s = .ok ops) (ho : o ∈ ops) :
    pointBefore s o = .ok (.before p.entry o) ∧
      ∃ before after, ops = before ++ o :: after ∧ o ∉ before ∧
        ∀ b known, Session s (.before p.entry o) b known →
          p.ops b.store = .ok (before ++ b.emitted ++ o :: after) ∧ b.store.validate p = .ok [] ∧
          ∀ (call : Call) action, call.Over known action →
            (∃ e, action b = .failed e b) ∨ ∃ v b', action b = .done v b' ∧ call.Extends b v b' := by
  obtain ⟨ops', hvalid⟩ := (validate_eq_nil_iff hs.consistent p).1 hv
  obtain rfl : ops = ops' := Except.ok.inj (hlisted.symm.trans hvalid.listed)
  obtain ⟨before, after, rfl, hsite⟩ := hvalid.exists_site hs.consistent ha ho
  obtain ⟨d, hd, hfits⟩ := hvalid.entry ho
  refine ⟨pointBefore_eq_ok ((parent?_eq hd).trans hfits.parent), before, after, rfl, hsite.notMem,
    fun b known hsession => ?_⟩
  have hstands := hsession.standsBefore hsite
  refine ⟨hstands.site.valid.listed,
    (validate_eq_nil_iff hstands.site.consistent p).2 ⟨_, hstands.site.valid⟩,
    fun call action hover => ?_⟩
  rcases hstands.call_outcome hover with hfailed | ⟨v, b', hdone, hextends, -⟩
  · exact .inl hfailed
  · exact .inr ⟨v, b', hdone, hextends⟩

theorem session_spec_quotient :
    let p : Program := ⟨"quotient", ⟨0⟩⟩
    ∃ b known, Session quotientStore (.before ⟨0⟩ ⟨1⟩) b known ∧ known = [⟨3⟩, ⟨2⟩] ∧
      p.ops b.store = .ok [⟨0⟩, ⟨2⟩, ⟨1⟩] ∧ b.store.validate p = .ok [] := by
  intro p
  -- the quotient is accepted and compared with itself, and the answer cannot be negated
  have hcompare : Call.Over (.compare .eq ⟨2⟩ ⟨2⟩) [⟨2⟩] (Builder.compare .eq ⟨2⟩ ⟨2⟩) :=
    ⟨rfl, by decide⟩
  have hneg : Call.Over (.unary .neg ⟨3⟩) [⟨3⟩, ⟨2⟩] (Builder.unary .neg ⟨3⟩) := ⟨rfl, by decide⟩
  have hadopted : Session quotientStore (.before ⟨0⟩ ⟨1⟩) _ [⟨2⟩] := .adopted .start
    (show (Builder.start quotientStore (.before ⟨0⟩ ⟨1⟩)).adopt ⟨2⟩ = .ok ⟨2⟩ from rfl)
  have hdone : Session quotientStore (.before ⟨0⟩ ⟨1⟩) _ [⟨3⟩, ⟨2⟩] := .done hadopted hcompare rfl
  have hsession := hdone.failed hneg rfl
  obtain ⟨-, before, after, heq, hnot, hspec⟩ := Store.Reachable.session_spec
    reachable_quotientStore (by decide) (show quotientStore.validate p = .ok [] by decide +kernel)
    (show p.ops quotientStore = .ok [⟨0⟩, ⟨1⟩] by decide) (show ⟨1⟩ ∈ _ by decide)
  obtain ⟨rfl, -, rfl⟩ := (List.append_cons_inj_of_notMem (by decide) (by decide)).1
    (show ([⟨0⟩] : List OpId) ++ ⟨1⟩ :: [] = before ++ ⟨1⟩ :: after from heq)
  obtain ⟨hops, hvalid, -⟩ := hspec _ _ hsession
  exact ⟨_, _, hsession, rfl, hops, hvalid⟩

end Mba
