import Mathlib.Data.Finset.Dedup
import Mathlib.Data.Finset.Lattice.Lemmas
import Mba.Proofs.Listing.Printing
import Mba.Proofs.Mutation.Plan
import Mba.Proofs.Store.Placement

/-!
# Replacements in any order

Operations of a program that read one another can be replaced in any order. The stores that come of
it differ: new operations and values get other numbers, and the use chains list the slots in other
orders. The text of the program is the same.

Results:
* `CarriedOut.print_eq`: stores in which a plan was carried out for the same operations give the
  program the same text.
* `rewriteAll_carriedOut`: replacing eligible operations carries out a plan.
* `print_rewriteAll_perm`: replacing the same operations in another order succeeds too, and the
  program has the same text afterwards.
-/

namespace Mba

open Template (Source Instruction)

namespace Plan

open Store Listing

variable {π : Plan} {p : Program} {ops : List OpId} {done : Finset OpId} {s s' : Store}
  {firstOp firstValue firstOp' firstValue' : OpId → Nat}

/-! ## Values under labels -/

/-- The label is that of a value of the store before, or of one that code creates. -/
def IsKnown (π : Plan) (done : Finset OpId) : Label ValueId → Prop
  | .kept v => π.store.isAllocated v = true
  | .fresh o index => o ∈ done ∧ index < (π.code o).length

namespace CarriedOut

variable (h : π.CarriedOut p ops done firstOp firstValue s)
include h

/-- **Values with different labels have different numbers.** -/
theorem number_inj {a b : Label ValueId} (ha : π.IsKnown done a) (hb : π.IsKnown done b)
    (heq : a.number ValueId.mk firstValue = b.number ValueId.mk firstValue) : a = b := by
  have hfar : ∀ (v : ValueId) (o : OpId) (index : Nat), π.IsKnown done (.kept v) →
      π.IsKnown done (.fresh o index) → v ≠ ⟨firstValue o + index⟩ := by
    rintro v o index hv ⟨ho, -⟩ rfl
    have hlt : firstValue o + index < π.store.values.size := of_decide_eq_true hv
    have := h.values_ge o ho
    omega
  cases a with
  | kept v =>
    cases b with
    | kept v' => exact congrArg Label.kept heq
    | fresh o' index' => exact absurd heq (hfar v o' index' ha hb)
  | fresh o index =>
    cases b with
    | kept v' => exact absurd heq.symm (hfar v' o index hb ha)
    | fresh o' index' =>
      have hsum : firstValue o + index = firstValue o' + index' := congrArg ValueId.index heq
      obtain ⟨ho, hlt⟩ := ha
      obtain ⟨ho', hlt'⟩ := hb
      by_cases hsame : o = o'
      · subst hsame
        rw [Nat.add_left_cancel hsum]
      · have := h.apart o ho o' ho' hsame
        omega

theorem isKnown_valueLabel {v : ValueId} (hv : π.store.isAllocated v = true) :
    π.IsKnown done (π.valueLabel done v) := by
  rcases π.valueLabel_cases done v with hkept | ⟨o, ho, hfresh⟩
  · rw [hkept]
    exact hv
  · rw [hfresh]
    exact ⟨ho, Nat.sub_one_lt_of_lt (h.nonempty o ho)⟩

/-- What an operation of the program reads and defines is known. -/
theorem isKnown_of_labelled? (ha : π.store.OperandsAllocated) (hs : π.store.Owned) {a : Label OpId}
    (hmem : a ∈ π.opLabels done ops) {d : LabelledOp} (hd : π.labelled? done a = some d) :
    (∀ v ∈ d.operands, π.IsKnown done v) ∧ ∀ v ∈ d.result?, π.IsKnown done v := by
  cases a with
  | kept o =>
    obtain ⟨entry, hentry, rfl⟩ := Option.map_eq_some_iff.1 hd
    constructor
    · intro v hv
      obtain ⟨u, hu, rfl⟩ := List.mem_map.1 hv
      exact h.isKnown_valueLabel (ha.of_mem hentry hu)
    · intro v hv
      obtain ⟨u, hu, rfl⟩ := Option.map_eq_some_iff.1 hv
      obtain ⟨ty, -, hvalue⟩ := hs.result_origin o u ((result?_eq hentry).trans hu)
      exact decide_eq_true (Array.getElem?_eq_some_iff.1 hvalue).1
  | fresh o index =>
    obtain ⟨-, hdone, hindex⟩ := fresh_mem_opLabels.1 hmem
    obtain ⟨entry, x, y, i, hentry, hoperands, hi, rfl⟩ := labelled?_fresh_iff.1 hd
    constructor
    · intro v hv
      obtain ⟨source, hsource, rfl⟩ := List.mem_map.1 hv
      cases source with
      | x => exact h.isKnown_valueLabel (ha.of_mem hentry (by simp [hoperands]))
      | y => exact h.isKnown_valueLabel (ha.of_mem hentry (by simp [hoperands]))
      | result j => exact ⟨hdone, h.ready o hdone i (List.mem_of_getElem? hi) _ hsource⟩
    · rintro v ⟨⟩
      exact ⟨hdone, hindex⟩

end CarriedOut

/-! ## Texts -/

/-- The numberings give values with one label the same number. -/
structure Match (π : Plan) (done : Finset OpId) (firstValue firstValue' : OpId → Nat)
    (n n' : Numbering) : Prop where
  next : n'.next = n.next
  number? : ∀ a, π.IsKnown done a → n'.number? (a.number ValueId.mk firstValue') =
    n.number? (a.number ValueId.mk firstValue)

variable {n n' : Numbering}

/-- Before any operation, only inputs have numbers. -/
theorem match_start (h : π.CarriedOut p ops done firstOp firstValue s)
    (h' : π.CarriedOut p ops done firstOp' firstValue' s') (hs : π.store.Owned) :
    Match π done firstValue firstValue' (Numbering.start.assignAll (p.inputs s))
      (Numbering.start.assignAll (p.inputs s')) := by
  rw [h.inputs, h'.inputs]
  refine ⟨rfl, fun a ha => ?_⟩
  cases a with
  | kept v => rfl
  | fresh o index =>
    have hnone : ∀ first : OpId → Nat, π.store.values.size ≤ first o →
        (Numbering.start.assignAll (p.inputs π.store)).number? ⟨first o + index⟩ = none := by
      intro first hge
      rw [Option.eq_none_iff_forall_ne_some]
      intro i hi
      rcases Numbering.mem_of_number?_assignAll hi with hinput | hstart
      · have hdefines : π.store.Defines p [] ⟨first o + index⟩ := .inl hinput
        have hlt : first o + index < π.store.values.size :=
          of_decide_eq_true (hdefines.isAllocated hs)
        omega
      · rw [Numbering.number?_start] at hstart
        cases hstart
    exact (hnone firstValue' (h'.values_ge o ha.1)).trans (hnone firstValue (h.values_ge o ha.1)).symm

/-- **Numberings still match behind an operation of the program.** -/
theorem Match.after (h : π.CarriedOut p ops done firstOp firstValue s)
    (h' : π.CarriedOut p ops done firstOp' firstValue' s')
    (hmatch : Match π done firstValue firstValue' n n') {d : LabelledOp}
    (hd : ∀ v ∈ d.result?, π.IsKnown done v) (b : BlockId) :
    Match π done firstValue firstValue' (n.after (d.operation firstValue b))
      (n'.after (d.operation firstValue' b)) := by
  unfold Numbering.after LabelledOp.operation
  cases hresult : d.result? with
  | none => exact hmatch
  | some v =>
    have hv := hd v hresult
    refine ⟨congrArg (· + 1) hmatch.next, fun a ha => ?_⟩
    simp only [Option.map_some, Numbering.number?_assign]
    by_cases heq : v = a
    · rw [if_pos (by rw [heq]), if_pos (by rw [heq]), hmatch.next]
    · rw [if_neg fun hsame => heq (h.number_inj hv ha hsame),
        if_neg fun hsame => heq (h'.number_inj hv ha hsame), hmatch.number? a ha]

/-- **The operations of the program have the same lines.** -/
theorem lists_of_match (h : π.CarriedOut p ops done firstOp firstValue s)
    (h' : π.CarriedOut p ops done firstOp' firstValue' s') (hs : π.store.Mutable p)
    {labels : List (Label OpId)} (hsub : ∀ a ∈ labels, a ∈ π.opLabels done ops)
    (hmatch : Match π done firstValue firstValue' n n') {lines : List Line}
    (hlines : Lists s n (labels.map (Label.number OpId.mk firstOp)) lines) :
    Lists s' n' (labels.map (Label.number OpId.mk firstOp')) lines := by
  induction labels generalizing n n' lines with
  | nil =>
    cases hlines
    exact .nil n'
  | cons a rest ih =>
    rw [List.map_cons] at hlines
    cases hlines with
    | @cons _ _ _ more d₁ operands entry numbers hmore =>
      have ha := hsub a List.mem_cons_self
      obtain ⟨d, hd, hentry⟩ := h.entries a ha
      obtain ⟨d', hd', hentry'⟩ := h'.entries a ha
      obtain rfl : d = d' := Option.some.inj (hd.symm.trans hd')
      obtain rfl : d₁ = d.operation firstValue p.entry := Option.some.inj (entry.symm.trans hentry)
      obtain ⟨hoperands, hresult⟩ := h.isKnown_of_labelled? hs.allocated hs.consistent.owned ha hd
      have hline : (d.operation firstValue p.entry).line operands n.next =
          (d.operation firstValue' p.entry).line operands n'.next := by
        rw [hmatch.next]
        simp only [Operation.line, Operation.literal?, LabelledOp.operation, Option.map_map]
        rfl
      have hnumbers : Numbers n' (d.operation firstValue' p.entry).operands operands := by
        rw [Numbers, ← numbers]
        simp only [LabelledOp.operation, List.map_map]
        exact List.map_congr_left fun v hv => hmatch.number? v (hoperands v hv)
      rw [hline]
      exact .cons hentry' hnumbers (ih (fun a' ha' => hsub a' (List.mem_cons_of_mem _ ha'))
        (hmatch.after h h' hresult p.entry) hmore)

/-- **Stores in which the plan was carried out for the same operations** give the program the same
text. -/
theorem CarriedOut.print_eq (h : π.CarriedOut p ops done firstOp firstValue s)
    (h' : π.CarriedOut p ops done firstOp' firstValue' s') (hs : π.store.Mutable p) :
    ∃ text, p.print s = .ok text ∧ p.print s' = .ok text := by
  obtain ⟨listed, hv⟩ := h.mutable.valid
  obtain rfl := Except.ok.inj (hv.listed.symm.trans h.listed)
  obtain ⟨lines, hlines⟩ := (covers_inputs s p).lists hv.flow
  have hlines' := lists_of_match h h' hs (fun _ ha => ha) (match_start h h' hs.consistent.owned) hlines
  obtain ⟨text, hprint, htext⟩ := print_ok h.mutable.consistent.owned h.listed hlines
  obtain ⟨text', hprint', htext'⟩ := print_ok h'.mutable.consistent.owned h'.listed hlines'
  have hlisting : s'.listing p lines = s.listing p lines := by
    rw [listing, listing, h.argTys, h'.argTys]
  refine ⟨text, hprint, ?_⟩
  rw [hprint', String.toList_injective (htext'.trans (hlisting ▸ htext.symm))]

end Plan

/-! ## Replacing operations in order -/

namespace Store

open Plan

variable {c : Catalog} {index : OpId → Nat} {s s' : Store} {p : Program} {ops : List OpId}
  {firstOp firstValue : OpId → Nat}

/-- Expands operations and rebinds them, one after another, each by the template of the catalog at
its index. -/
def rewriteAll (c : Catalog) (index : OpId → Nat) : List OpId → Edit Store MutationError Unit
  | [] => pure ()
  | o :: rest => do
    let e ← expand c o (index o)
    let _ ← rebind o e.result
    rewriteAll c index rest

/-- The plan of replacing each eligible operation by the template of the catalog at its index. -/
def planOf (c : Catalog) (index : OpId → Nat) (s : Store) : Plan where
  store := s
  code o :=
    match s.eligibility o, s.resultTy? o with
    | .ok op, some (.int w) => ((c.templates op)[index o]?.map (·.code w)).getD []
    | _, _ => []

/-- An operation of the program that is eligible, and whose index is that of a template. -/
def Pickable (c : Catalog) (index : OpId → Nat) (s : Store) (ops : List OpId) (o : OpId) : Prop :=
  o ∈ ops ∧ ∃ op, s.eligibility o = .ok op ∧ index o < (c.templates op).length

/-- An operation that was pickable at the start is replaced, whatever others were before. -/
theorem rewrite_carriedOut {done : Finset OpId} {o : OpId} (hs : s.Mutable p) (hnodup : ops.Nodup)
    (h : (planOf c index s).CarriedOut p ops done firstOp firstValue s')
    (ho : s.Pickable c index ops o) (hnew : o ∉ done) :
    ∃ e n s₁ s₂ firstOp' firstValue', expand c o (index o) s' = .done e s₁ ∧
      rebind o e.result s₁ = .done n s₂ ∧
      (planOf c index s).CarriedOut p ops (insert o done) firstOp' firstValue' s₂ := by
  obtain ⟨hmem, op, he, hindex⟩ := ho
  have ht := List.getElem?_eq_getElem hindex
  obtain ⟨d, x, y, w, hd, hop, hsupported, hoperands, -, -, hty⟩ := eligibility_ok he
  have hcode : (planOf c index s).code o = ((c.templates op)[index o]).code w := by
    simp only [planOf, he, resultTy?_eq hd, hty, ht, Option.map_some, Option.getD_some]
  -- the operation is still in the program, and types have not changed
  have hentry := h.entry_kept hmem hnew hd
  obtain ⟨listed, hv⟩ := h.mutable.valid
  obtain rfl := Except.ok.inj (hv.listed.symm.trans h.listed)
  have hlabel : Label.kept o ∈ (planOf c index s).opLabels done ops :=
    kept_mem_opLabels.2 ⟨hmem, hnew⟩
  have hlisted : o ∈ ((planOf c index s).opLabels done ops).map (Label.number OpId.mk firstOp) :=
    List.mem_map_of_mem hlabel
  have he' : s'.eligibility o = .ok op := hv.eligibility_eq_ok hlisted hentry hop hsupported hty
  obtain ⟨r, -, hexpand, hrebind⟩ :=
    exists_replacement h.mutable.consistent h.mutable.allocated hv hlisted he' ht
  exact ⟨_, _, r.expanded, r.result, _, _, hexpand, hrebind,
    h.replace hd hoperands hty hcode r hs.consistent.owned hnodup hmem hnew⟩

/-- **Replacing pickable operations in order** carries out the plan. -/
theorem rewriteAll_carriedOut (hs : s.Mutable p) (hnodup : ops.Nodup) {picks : List OpId}
    {done : Finset OpId} (h : (planOf c index s).CarriedOut p ops done firstOp firstValue s')
    (hpicks : ∀ o ∈ picks, s.Pickable c index ops o) (hdistinct : picks.Nodup)
    (hnew : ∀ o ∈ picks, o ∉ done) :
    ∃ s'' firstOp' firstValue', rewriteAll c index picks s' = .done () s'' ∧
      (planOf c index s).CarriedOut p ops (picks.toFinset ∪ done) firstOp' firstValue' s'' := by
  induction picks generalizing done firstOp firstValue s' with
  | nil =>
    refine ⟨s', firstOp, firstValue, rfl, ?_⟩
    rwa [List.toFinset_nil, Finset.empty_union]
  | cons o rest ih =>
    obtain ⟨hnot, hrest⟩ := List.nodup_cons.1 hdistinct
    obtain ⟨e, n, s₁, s₂, firstOp₁, firstValue₁, hexpand, hrebind, h₁⟩ := rewrite_carriedOut hs hnodup
      h (hpicks o List.mem_cons_self) (hnew o List.mem_cons_self)
    obtain ⟨s'', firstOp', firstValue', hall, h'⟩ := ih h₁
      (fun o' ho' => hpicks o' (List.mem_cons_of_mem _ ho')) hrest fun o' ho' hmem => by
        rcases Finset.mem_insert.1 hmem with rfl | hdone
        · exact hnot ho'
        · exact hnew o' (List.mem_cons_of_mem _ ho') hdone
    refine ⟨s'', firstOp', firstValue', ?_, ?_⟩
    · exact (Edit.bind_done hexpand).trans ((Edit.bind_done hrebind).trans hall)
    · rwa [List.toFinset_cons, Finset.insert_union, ← Finset.union_insert]

/-- **Replacements commute.** In a store whose blocks were created empty and in which all operands
are values, let a program be valid, and let distinct eligible operations of it have an index of a
template each. Expanding and rebinding them one after another succeeds in every order, and the text
of the program afterwards does not depend on the order. -/
theorem print_rewriteAll_perm (c : Catalog) (index : OpId → Nat) (hs : s.ReachableEmpty)
    (ha : s.OperandsAllocated) (hv : s.validate p = .ok []) (hops : p.ops s = .ok ops)
    {picks picks' : List OpId} (hpicks : ∀ o ∈ picks, s.Pickable c index ops o)
    (hdistinct : picks.Nodup) (hperm : picks.Perm picks') :
    ∃ s₁ s₂ text, rewriteAll c index picks s = .done () s₁ ∧
      rewriteAll c index picks' s = .done () s₂ ∧ p.print s₁ = .ok text ∧ p.print s₂ = .ok text := by
  have hmutable : s.Mutable p := .of_validate hs.reachable.consistent ha hv
  obtain ⟨ops', hvalid⟩ := hmutable.valid
  obtain rfl : ops' = ops := Except.ok.inj (hvalid.listed.symm.trans hops)
  obtain ⟨block, hblock, rfl⟩ := ops_eq_ok_iff.1 hops
  have hnodup := hs.arranged.nodup p.entry block hblock
  have hstart := carriedOut_start (π := planOf c index s) hmutable hvalid (fun _ => 0) fun _ => 0
  obtain ⟨s₁, firstOp, firstValue, hdone, h⟩ := rewriteAll_carriedOut hmutable hnodup hstart hpicks
    hdistinct fun _ _ => Finset.notMem_empty _
  obtain ⟨s₂, firstOp', firstValue', hdone', h'⟩ := rewriteAll_carriedOut hmutable hnodup hstart
    (fun o ho => hpicks o (hperm.mem_iff.2 ho)) (hperm.nodup_iff.1 hdistinct)
    fun _ _ => Finset.notMem_empty _
  rw [← List.toFinset_eq_of_perm _ _ hperm] at h'
  obtain ⟨text, hprint, hprint'⟩ := h.print_eq h' hmutable
  exact ⟨s₁, s₂, text, hdone, hdone', hprint, hprint'⟩

/-- A store that holds the program of a sum and of an exclusive or that reads the sum. -/
def chainStore : Store where
  ops := #[⟨.binary .add, [⟨0⟩, ⟨1⟩], some (.int .w8), some ⟨2⟩, some ⟨0⟩⟩,
    ⟨.binary .xor, [⟨2⟩, ⟨0⟩], some (.int .w8), some ⟨3⟩, some ⟨0⟩⟩,
    ⟨.ret, [⟨3⟩], none, none, some ⟨0⟩⟩]
  values := #[⟨.argument ⟨0⟩ 0, .int .w8⟩, ⟨.argument ⟨0⟩ 1, .int .w8⟩, ⟨.result ⟨0⟩, .int .w8⟩,
    ⟨.result ⟨1⟩, .int .w8⟩]
  blocks := #[⟨[.int .w8, .int .w8], [⟨0⟩, ⟨1⟩], [⟨0⟩, ⟨1⟩, ⟨2⟩]⟩]
  chains := ⟨#[some [⟨⟨0⟩, 0⟩, ⟨⟨1⟩, 1⟩], some [⟨⟨0⟩, 1⟩], some [⟨⟨1⟩, 0⟩], some [⟨⟨2⟩, 0⟩]]⟩

theorem reachableEmpty_chainStore : chainStore.ReachableEmpty :=
  .foldlM .empty (by decide)
    (show [.createBlock [.int .w8, .int .w8] [],
        .createOp ⟨.binary .add, [⟨0⟩, ⟨1⟩], some (.int .w8), none⟩, .pushOp ⟨0⟩ ⟨0⟩,
        .createOp ⟨.binary .xor, [⟨2⟩, ⟨0⟩], some (.int .w8), none⟩, .pushOp ⟨0⟩ ⟨1⟩,
        .createOp ⟨.ret, [⟨3⟩], none, none⟩, .pushOp ⟨0⟩ ⟨2⟩].foldlM Change.apply Store.empty =
      .ok chainStore from rfl)

theorem print_rewriteAll_perm_chain :
    let p : Program := ⟨"chain", ⟨0⟩⟩
    let picks : List OpId := [⟨0⟩, ⟨1⟩]
    let picks' : List OpId := [⟨1⟩, ⟨0⟩]
    ∃ s₁ s₂ text, rewriteAll Catalog.standard (fun _ => 0) picks chainStore = .done () s₁ ∧
      rewriteAll Catalog.standard (fun _ => 0) picks' chainStore = .done () s₂ ∧
      p.print s₁ = .ok text ∧ p.print s₂ = .ok text ∧ s₁.ops ≠ s₂.ops := by
  intro p picks picks'
  have hpicks : ∀ o ∈ picks, chainStore.Pickable Catalog.standard (fun _ => 0) [⟨0⟩, ⟨1⟩, ⟨2⟩] o := by
    intro o ho
    rcases List.mem_pair.1 ho with rfl | rfl
    · exact ⟨by decide, .add, by decide +kernel, by decide⟩
    · exact ⟨by decide, .xor, by decide +kernel, by decide⟩
  obtain ⟨s₁, s₂, text, hdone, hdone', hprint, hprint'⟩ :=
    print_rewriteAll_perm (p := p) Catalog.standard (fun _ => 0) reachableEmpty_chainStore
      (by decide) (by decide +kernel) (by decide +kernel) hpicks (by decide)
      (show picks.Perm picks' by decide)
  refine ⟨s₁, s₂, text, hdone, hdone', hprint, hprint', fun heq => ?_⟩
  have hdiffer : (rewriteAll Catalog.standard (fun _ => 0) picks chainStore).done?.map (·.2.ops) ≠
      (rewriteAll Catalog.standard (fun _ => 0) picks' chainStore).done?.map (·.2.ops) := by
    decide +kernel
  rw [hdone, hdone'] at hdiffer
  exact hdiffer (congrArg some heq)

end Store

end Mba
