import Mba.Proofs.Building
import Mba.Proofs.Store.Placement

/-!
# Building before an operation

A program is taken apart at an operation, the anchor: the operations `before` its first place and
those `after` it. A builder that stands before the anchor sees the values that `before` defines, and
what it emits goes to the end of `before`. The program need not be valid for the one; where it is,
the two parts make a site.

Results:
* `Split.adopt`: the builder accepts the values known before the anchor, and no others.
* `Site.exists_emitted`, `Site.emitted`: emitting a well-typed operation over them succeeds, and
  leaves a site.
-/

namespace Mba

namespace Store

variable {s s' : Store} {p : Program}

/-! ## Places in a list -/

theorem idxOf?_anchor {before after : List OpId} {anchor : OpId} (h : anchor ∉ before) :
    (before ++ anchor :: after).idxOf? anchor = some before.length := by
  induction before with
  | nil => simp [List.idxOf?_cons]
  | cons o rest ih =>
    obtain ⟨hne, hrest⟩ := not_or.1 (mt List.mem_cons.2 h)
    have hbeq : (o == anchor) = false := beq_eq_false_iff_ne.2 (Ne.symm hne)
    simp [List.idxOf?_cons, hbeq, ih hrest]

theorem idxOf?_of_mem {before : List OpId} {o : OpId} (h : o ∈ before) (after : List OpId) :
    ∃ place, (before ++ after).idxOf? o = some place ∧ place < before.length := by
  induction before with
  | nil => cases h
  | cons o' rest ih =>
    rw [List.cons_append, List.idxOf?_cons]
    by_cases heq : o' = o
    · exact ⟨0, by simp [heq], by simp⟩
    · obtain ⟨place, hplace, hlt⟩ := ih ((List.mem_cons.1 h).resolve_left (Ne.symm heq))
      exact ⟨place + 1, by simp [heq, hplace], by simpa using hlt⟩

/-- An item of a list stands in its front exactly if its first place is there. -/
theorem lt_length_iff_mem {before after : List OpId} {o : OpId} {place : Nat}
    (h : (before ++ after).idxOf? o = some place) : place < before.length ↔ o ∈ before := by
  constructor
  · intro hlt
    obtain ⟨hplace, heq, -⟩ := List.idxOf?_eq_some_iff.1 h
    rw [List.getElem_append_left hlt] at heq
    exact heq ▸ List.getElem_mem hlt
  · intro ho
    obtain ⟨place', hplace', hlt⟩ := idxOf?_of_mem ho after
    rw [h] at hplace'
    exact Option.some.inj hplace' ▸ hlt

theorem insertIdx_length (before after : List OpId) (o : OpId) :
    (before ++ after).insertIdx before.length o = before ++ o :: after := by
  induction before with
  | nil => rfl
  | cons o' rest ih => simp [ih]

/-- The front of a list that goes on is a front of all but the last. -/
theorem append_cons_eq_append_singleton {before after body : List OpId} {anchor last : OpId}
    (h : before ++ anchor :: after = body ++ [last]) :
    ∃ more, body = before ++ more ∧ anchor :: after = more ++ [last] := by
  rcases List.append_eq_append_iff.1 h with ⟨more, hmore, hlast⟩ | ⟨more, rfl, hlast⟩
  · exact ⟨more, hmore, hlast⟩
  · cases more with
    | nil => exact ⟨[], by simp, by simpa using hlast.symm⟩
    | cons _ _ => simp at hlast

/-! ## Places of builders -/

/-- An operation that is placed can be built before. -/
theorem pointBefore_eq_ok {o : OpId} {b : BlockId} (h : s.parent? o = some b) :
    Builder.pointBefore s o = .ok (.before b o) := by
  obtain ⟨d, hd, hparent⟩ := Option.bind_eq_some_iff.1 h
  simp only [Builder.pointBefore, op_lift hd, bind, Except.bind, hparent]

/-- The operations of a program, taken apart at the first place of `anchor`. Those before it are
placed in the block that lists them. -/
structure Split (s : Store) (p : Program) (anchor : OpId) (before after : List OpId) : Prop where
  listed : p.ops s = .ok (before ++ anchor :: after)
  notMem : anchor ∉ before
  placed : ∀ o ∈ before, s.parent? o = some p.entry

variable {anchor : OpId} {before after : List OpId}

/-- **A value is visible before the anchor** exactly if it is known there. -/
theorem Split.isVisible (h : s.Split p anchor before after) (hs : s.Owned) (v : ValueId)
    (emitted : List OpId) :
    ∃ visible, Builder.isVisible ⟨s, .before p.entry anchor, emitted⟩ v = .ok visible ∧
      (visible = true ↔ s.Defines p before v) := by
  cases hv : s.values[v.index]? with
  | none =>
    have hallocated : s.isAllocated v = false :=
      decide_eq_false (Nat.not_lt.2 (Array.getElem?_eq_none_iff.1 hv))
    refine ⟨false, by simp [Builder.isVisible, hallocated, pure, Except.pure], ?_⟩
    exact ⟨nofun, fun hdefines => by rw [hdefines.isAllocated hs] at hallocated; cases hallocated⟩
  | some entry =>
    obtain ⟨origin, ty⟩ := entry
    have hallocated : s.isAllocated v = true :=
      decide_eq_true (Array.getElem?_eq_some_iff.1 hv).1
    cases origin with
    | argument home i =>
      rw [defines_argument_iff hs (hs.origin_arg home i v ty hv)]
      simp only [Builder.isVisible, hallocated, value, hv, InsertPoint.block, bind, Except.bind,
        pure, Except.pure, Bool.not_true, Bool.false_eq_true, if_false]
      exact ⟨_, rfl, decide_eq_true_iff⟩
    | result definer =>
      have hresult := hs.origin_result definer v ty hv
      obtain ⟨d, hd, -⟩ := Option.bind_eq_some_iff.1 hresult
      obtain ⟨target, htarget, hops⟩ := ops_eq_ok_iff.1 h.listed
      rw [defines_result_iff hs hresult]
      simp only [Builder.isVisible, hallocated, value, hv, op_eq_ok_iff.2 hd, InsertPoint.block,
        position?, block_eq_ok_iff.2 htarget, hops, bind, Except.bind, pure, Except.pure, Except.map,
        Bool.not_true, Bool.false_eq_true, if_false]
      split
      · next helsewhere =>
        refine ⟨false, rfl, nofun, fun hmem => absurd (h.placed definer hmem) ?_⟩
        rwa [parent?_eq hd]
      cases hplace : (before ++ anchor :: after).idxOf? definer with
      | none =>
        have hnot := List.idxOf?_eq_none_iff.1 hplace
        exact ⟨false, rfl, nofun, fun hmem => absurd (List.mem_append_left _ hmem) hnot⟩
      | some place =>
        simp only [idxOf?_anchor h.notMem]
        exact ⟨_, rfl, decide_eq_true_iff.trans (lt_length_iff_mem hplace)⟩

/-- **The builder accepts the values known before the anchor**, and no others. -/
theorem Split.adopt (h : s.Split p anchor before after) (hs : s.Owned) (v : ValueId)
    (emitted : List OpId) :
    (s.Defines p before v ∧ Builder.adopt ⟨s, .before p.entry anchor, emitted⟩ v = .ok v) ∨
      (¬ s.Defines p before v ∧
        Builder.adopt ⟨s, .before p.entry anchor, emitted⟩ v = Attempt.fail (.notVisible v)) := by
  obtain ⟨visible, hvisible, hdefines⟩ := h.isVisible hs v emitted
  rw [Builder.adopt, hvisible, ← hdefines]
  cases visible with
  | true => exact .inl ⟨rfl, rfl⟩
  | false => exact .inr ⟨nofun, rfl⟩

/-- There is a place before the anchor, at the end of the operations before it. -/
theorem Split.exists_places (h : s.Split p anchor before after) (o : OpId) :
    ∃ target, s.blocks[p.entry.index]? = some target ∧
      Builder.Places (.before p.entry anchor) target.ops o (before ++ o :: anchor :: after) := by
  obtain ⟨target, htarget, hops⟩ := ops_eq_ok_iff.1 h.listed
  refine ⟨target, htarget, before.length, ?_, ?_⟩
  · rw [hops, idxOf?_anchor h.notMem]
  · rw [hops, insertIdx_length]

/-! ## Sites -/

/-- A valid program, taken apart at the first place of `anchor`. -/
structure Site (s : Store) (p : Program) (anchor : OpId) (before after : List OpId) : Prop where
  consistent : s.Consistent
  allocated : s.OperandsAllocated
  valid : s.Valid p (before ++ anchor :: after)
  notMem : anchor ∉ before

/-- The operations of a valid program are placed in its block. -/
theorem Valid.entry {ops : List OpId} (h : s.Valid p ops) {o : OpId} (ho : o ∈ ops) :
    ∃ d, s.ops[o.index]? = some d ∧ s.Fits p ops d :=
  h.flow.fits ho

/-- The first place of a listed operation of a valid program is a site. -/
theorem Valid.exists_site {ops : List OpId} {o : OpId} (hs : s.Consistent)
    (ha : s.OperandsAllocated) (hv : s.Valid p ops) (ho : o ∈ ops) :
    ∃ before after, ops = before ++ o :: after ∧ s.Site p o before after := by
  obtain ⟨before, after, rfl, hnot⟩ := List.eq_append_cons_of_mem ho
  exact ⟨before, after, rfl, hs, ha, hv, hnot⟩

/-- The anchor of a site is placed in the program. -/
theorem Site.parent_anchor (h : s.Site p anchor before after) {d : Operation}
    (hd : s.ops[anchor.index]? = some d) : d.parent? = some p.entry := by
  obtain ⟨d', hd', hfits⟩ := h.valid.entry (show anchor ∈ before ++ anchor :: after by simp)
  rw [hd] at hd'
  cases hd'
  exact hfits.parent

/-- No operation before the anchor is a `ret`. -/
theorem Site.opcode_ne_ret (h : s.Site p anchor before after) {o : OpId} (ho : o ∈ before) :
    s.opcode? o ≠ some .ret := by
  obtain ⟨body, last, hbody, -, hne⟩ := h.valid.ending
  obtain ⟨more, hmore, -⟩ := append_cons_eq_append_singleton hbody
  exact hne o (hmore ▸ List.mem_append_left _ ho)

/-- The operations of a valid program in front of an anchor have entries, and none is a `ret`. -/
theorem Site.exists_ne_ret (h : s.Site p anchor before after) {o : OpId} (ho : o ∈ before) :
    ∃ d, s.ops[o.index]? = some d ∧ d.opcode ≠ .ret := by
  obtain ⟨d, hd, -⟩ := h.valid.entry (List.mem_append_left _ ho)
  refine ⟨d, hd, fun hret => h.opcode_ne_ret ho ?_⟩
  rw [opcode?, hd, Option.map_some, hret]

theorem Site.split (h : s.Site p anchor before after) : s.Split p anchor before after where
  listed := h.valid.listed
  notMem := h.notMem
  placed o ho := by
    obtain ⟨d, hd, hfits⟩ := h.valid.entry (List.mem_append_left _ ho)
    rw [parent?_eq hd, hfits.parent]

/-- The builder accepts the values known before the anchor. -/
theorem Site.adopt (h : s.Site p anchor before after) {v : ValueId} (hv : s.Defines p before v)
    (emitted : List OpId) :
    Builder.adopt ⟨s, .before p.entry anchor, emitted⟩ v = .ok v := by
  rcases h.split.adopt h.consistent.owned v emitted with ⟨-, hok⟩ | ⟨hnot, -⟩
  · exact hok
  · exact absurd hv hnot

theorem Site.exists_emitted (h : s.Site p anchor before after) (opcode : Opcode)
    (operands : List ValueId) (ty : Ty) (emitted : List OpId) :
    ∃ s', Builder.emitValue opcode operands ty ⟨s, .before p.entry anchor, emitted⟩ =
        .done ⟨s.values.size⟩ ⟨s', .before p.entry anchor, emitted ++ [⟨s.ops.size⟩]⟩ ∧
      s.Emitted p.entry (before ++ ⟨s.ops.size⟩ :: anchor :: after)
        ⟨opcode, operands, some ty, none⟩ s' := by
  obtain ⟨target, htarget, hplace⟩ := h.split.exists_places ⟨s.ops.size⟩
  exact Builder.emitValue_eq_done h.consistent (.before p.entry anchor) opcode operands ty htarget
    hplace emitted

/-- A program that ends in its only `ret` still does when another operation comes before the
anchor. -/
theorem ending_insert {o : OpId} (hnew : s'.opcode? o ≠ some .ret)
    (hold : ∀ o ∈ before ++ anchor :: after, s'.opcode? o = s.opcode? o)
    (h : ∃ body last, before ++ anchor :: after = body ++ [last] ∧ s.opcode? last = some .ret ∧
      ∀ o ∈ body, s.opcode? o ≠ some .ret) :
    ∃ body last, before ++ o :: anchor :: after = body ++ [last] ∧ s'.opcode? last = some .ret ∧
      ∀ o ∈ body, s'.opcode? o ≠ some .ret := by
  obtain ⟨body, last, hbody, hret, hne⟩ := h
  obtain ⟨more, hmore, hlast⟩ := append_cons_eq_append_singleton hbody
  refine ⟨before ++ o :: more, last, by rw [hlast]; simp, ?_, ?_⟩
  · rw [hold last (by rw [hlast]; simp), hret]
  · intro o' ho'
    rcases List.mem_append.1 ho' with hfront | hback
    · rw [hold o' (List.mem_append_left _ hfront)]
      exact hne o' (hmore ▸ List.mem_append_left _ hfront)
    · rcases List.mem_cons.1 hback with rfl | hback
      · exact hnew
      · rw [hold o' (by rw [hlast]; simp [hback])]
        exact hne o' (hmore ▸ List.mem_append_right _ hback)

section

variable {draft : Draft} (he : s.Emitted p.entry (before ++ ⟨s.ops.size⟩ :: anchor :: after) draft s')
include he

/-- What reads a value of the program behind an emission is listed, if all readers were before. -/
theorem Site.mem_of_reads (h : s.Site p anchor before after) {v : ValueId} {use : Use}
    (hv : s'.Defines p (before ++ ⟨s.ops.size⟩ :: anchor :: after) v)
    (hread : s'.slot? use = some v) : use.user ∈ before ++ ⟨s.ops.size⟩ :: anchor :: after := by
  rw [he.slot?] at hread
  split at hread
  · next hnew => simp [hnew]
  · have hallocated := of_decide_eq_true (h.allocated use v hread)
    have hold : s.Defines p (before ++ anchor :: after) v := by
      rcases hv with hinput | ⟨o, ho, hresult⟩
      · rw [Program.inputs, he.args] at hinput
        exact .inl hinput
      · rw [he.result?] at hresult
        split at hresult
        · obtain ⟨ty, -, rfl⟩ := Option.map_eq_some_iff.1 hresult
          exact absurd hallocated (by simp)
        · next hne =>
          rw [List.mem_append, List.mem_cons] at ho
          exact .inr ⟨o, by rw [List.mem_append]; grind, hresult⟩
    have hmem := h.valid.closed v use hold hread
    rw [List.mem_append] at hmem ⊢
    grind

end

/-- **Emitting a well-typed operation over values known before the anchor leaves a site.** -/
theorem Site.emitted (h : s.Site p anchor before after) {opcode : Opcode}
    {operands : List ValueId} {ty : Ty} (hoperands : ∀ v ∈ operands, s.Defines p before v)
    (htyped : s.typeDefect? ⟨opcode, operands, some ty, none, none⟩ = none)
    (he : s.Emitted p.entry (before ++ ⟨s.ops.size⟩ :: anchor :: after)
      ⟨opcode, operands, some ty, none⟩ s') :
    s'.Site p anchor (before ++ [⟨s.ops.size⟩]) after := by
  have hlisting : before ++ [(⟨s.ops.size⟩ : OpId)] ++ anchor :: after =
      before ++ ⟨s.ops.size⟩ :: anchor :: after := by simp
  have hfresh : ∀ o ∈ before ++ anchor :: after, o ≠ ⟨s.ops.size⟩ := by
    rintro o ho rfl
    obtain ⟨d, hd, -⟩ := h.valid.entry ho
    simp at hd
  have hnew := he.getElem?_ops s.ops.size
  rw [if_pos rfl] at hnew
  constructor
  case consistent => exact he.consistent
  case allocated =>
    exact he.allocated h.allocated fun v hv => (hoperands v hv).isAllocated h.consistent.owned
  case notMem =>
    intro hmem
    rcases List.mem_append.1 hmem with hbefore | hnew
    · exact h.notMem hbefore
    · exact hfresh anchor (by simp) (List.mem_singleton.1 hnew)
  case valid =>
    rw [hlisting]
    constructor
    case listed =>
      obtain ⟨target, htarget, -⟩ := ops_eq_ok_iff.1 h.valid.listed
      refine ops_eq_ok_iff.2 ⟨{ target with ops := before ++ ⟨s.ops.size⟩ :: anchor :: after },
        ?_, rfl⟩
      rw [he.blocks, Array.getElem?_modify, if_pos rfl, htarget]
      rfl
    case flow =>
      obtain ⟨hbefore, hanchor⟩ := flow_append.1 h.valid.flow
      exact flow_append.2 ⟨he.flow h.consistent.owned (fun _ ho => ho) hbefore,
        he.fits h.consistent.owned rfl hoperands htyped,
        he.flow h.consistent.owned (fun _ ho => List.mem_append_left _ ho) hanchor⟩
    case ending =>
      refine ending_insert ?_ ?_ h.valid.ending
      · rw [opcode?, hnew, Option.map_some]
        intro hret
        obtain rfl : opcode = .ret := Option.some.inj hret
        cases typeDefect?_eq_none_iff_wellTyped.1 htyped
      · intro o ho
        obtain ⟨d, hd, -⟩ := h.valid.entry ho
        rw [opcode?, opcode?, he.ops_of_some hd, hd]
    case closed => exact fun v use hv hread => h.mem_of_reads he hv hread

end Store

end Mba
