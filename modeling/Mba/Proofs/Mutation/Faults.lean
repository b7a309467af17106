import Mba.Proofs.Growth
import Mba.Proofs.Mutation.Atomicity
import Mba.Proofs.Program.Report

/-!
# Where mutation faults

Whether an operation is eligible depends on the types of its operands, and asking for the type of a
number that no value has is a fault. Nothing else is one, on the way from the search for candidates
to the validation of the program: not in an ill-formed store either, and wherever the operation
stands or stood. A mutation is a run of careful changes, and under these an operation that does not
dangle does not come to. So a round faults at its start or not at all.

Results:
* `Store.expand_ends`, `Bench.expand_ends`, `Bench.mutate_ends`: how expansions and mutations of any
  operation end.
* `Run.not_dangles`: careful changes leave no operation dangling that was not.
* `mutateAll_ends`: mutating operations in order does not fault where none of them dangles.
* `mutateProgram_ends`: a round faults iff an operation of the program dangles.
* `faultsWhen_dangles`: mutation faults at operations that dangle, and nowhere else.
-/

namespace Mba

open Store

/-- The edit faults at a missing entry where `p` holds, and does not fault where it does not. -/
def Outcome.FaultsWhen {σ ε α : Type} (p : Prop) (outcome : Outcome σ ε α) : Prop :=
  ∀ f, outcome = .fault f ↔ f = .dangling ∧ p

/-- How an edit ends that faults at a missing entry where `p` holds. Where it does not, the edit
fails, or is done and its answer and its state are as `answers` says. -/
inductive Outcome.Ends {σ ε α : Type} (p : Prop) (answers : α → σ → Prop) : Outcome σ ε α → Prop
  | fault (h : p) : Ends p answers (.fault .dangling)
  | done {a : α} {s : σ} (hnot : ¬ p) (h : answers a s) : Ends p answers (.done a s)
  | failed {e : ε} {s : σ} (hnot : ¬ p) : Ends p answers (.failed e s)

namespace Outcome.Ends

variable {σ ε α β : Type} {p q : Prop} {mid : α → σ → Prop} {answers : β → σ → Prop} {s : σ}
  {outcome : Outcome σ ε β}

theorem faultsWhen (h : outcome.Ends p answers) : outcome.FaultsWhen p := by
  intro f
  cases h with
  | fault hp =>
    constructor
    · rintro ⟨⟩
      exact ⟨rfl, hp⟩
    · rintro ⟨rfl, -⟩
      rfl
  | done hnot _ => exact ⟨nofun, fun hdangling => absurd hdangling.2 hnot⟩
  | failed hnot => exact ⟨nofun, fun hdangling => absurd hdangling.2 hnot⟩

theorem congr (h : outcome.Ends p answers) (hpq : p ↔ q) : outcome.Ends q answers :=
  propext hpq ▸ h

/-- The state of an edit that is done is one that its changes lead to. -/
theorem runs {allowed : Store → Change → Prop} {view : σ → Store} {start : Store}
    {answers' : β → Store → Prop} (h : outcome.Ends p answers)
    (hruns : outcome.Runs allowed view start answers') :
    outcome.Ends p fun _ t => Run allowed start (view t) := by
  cases h with
  | fault hp => exact .fault hp
  | done hnot _ => exact .done hnot hruns.1
  | failed hnot => exact .failed hnot

/-- An edit in two steps, of which the second starts only where `p` does not hold. -/
theorem bind {m : Edit σ ε α} {next : α → Edit σ ε β} (hm : (m s).Ends p mid)
    (hnext : ¬ p → ∀ a t, mid a t → (next a t).Ends p answers) :
    ((m >>= next) s).Ends p answers := by
  cases h : m s with
  | done a t =>
    rw [h] at hm
    rw [Edit.bind_done h]
    cases hm with
    | done hnot ha => exact hnext hnot a t ha
  | failed e t =>
    rw [h] at hm
    rw [Edit.bind_failed h]
    cases hm with
    | failed hnot => exact .failed hnot
  | fault f =>
    rw [h] at hm
    rw [Edit.bind_fault h]
    cases hm with
    | fault hp => exact .fault hp

end Outcome.Ends

/-! ## Expansions -/

namespace Store

variable {s s' : Store} {o : OpId} {d : Operation}

theorem isEligible_eq_error_iff (hd : s.ops[o.index]? = some d) {f : Fault} :
    s.isEligible o = .error f ↔ f = .dangling ∧ s.Dangles o := by
  unfold isEligible
  rcases eligibility_cases hd with ⟨hdangles, he⟩ | ⟨hnot, ⟨reason, he⟩ | ⟨op, he⟩⟩
  · simp [he, hdangles, Attempt.answer, Except.map, eq_comm]
  · simp [he, hnot, Attempt.answer, Except.map]
  · simp [he, hnot, Attempt.answer, Except.map]

/-- The operands of an eligible operation are values. -/
theorem isAllocated_of_eligibility {op : BinaryOp} (he : s.eligibility o = .ok op)
    (hd : s.ops[o.index]? = some d) : ∀ v ∈ d.operands, s.isAllocated v = true := by
  obtain ⟨d', x, y, w, hd', -, -, hoperands, hx, hy, -⟩ := eligibility_ok he
  obtain rfl : d = d' := Option.some.inj (hd.symm.trans hd')
  rw [hoperands]
  exact List.forall_mem_cons.2 ⟨isAllocated_iff_valueTy.2 ⟨_, valueTy_eq_ok_iff.2 hx⟩,
    List.forall_mem_singleton.2 (isAllocated_iff_valueTy.2 ⟨_, valueTy_eq_ok_iff.2 hy⟩)⟩

/-- **How the expansion of any operation ends.** -/
theorem expand_ends (hs : s.Consistent) (hhoused : s.Housed) (hd : s.ops[o.index]? = some d)
    (c : Catalog) (index : Nat) : (expand c o index s).Ends (s.Dangles o) (s.Prepared o d) := by
  rcases eligibility_cases hd with ⟨hdangles, he⟩ | ⟨hnot, ⟨reason, he⟩ | ⟨op, he⟩⟩
  · have hfault : expand c o index s = .fault .dangling :=
      Edit.bind_fault (Edit.read_fault (by rw [operatorOf, he]; rfl))
    rw [hfault]
    exact .fault hdangles
  · rw [expand_of_ineligible he]
    exact .failed hnot
  · rcases expand_outcome hs hhoused hd (isAllocated_of_eligibility he hd) c index with
      ⟨e, s', hdone, hprepared⟩ | ⟨e, hfailed, -⟩
    · rw [hdone]
      exact .done hnot hprepared
    · rw [hfailed]
      exact .failed hnot

/-! ## Careful changes -/

/-- **Careful changes leave no operation dangling that was not.** -/
theorem Run.not_dangles (h : Run Change.Careful s s') (hs : s.Consistent)
    (hlt : o.index < s.ops.size) (hnot : ¬ s.Dangles o) : ¬ s'.Dangles o := by
  induction h with
  | refl => exact hnot
  | @step t t' change h hcareful hstep ih =>
    have ht := h.consistent hs
    have hle := (h.within hs).ops
    have hin := within_of_apply ht hstep
    rintro ⟨d', op, x', y', hd', hop, hsupported, hoperands, hunallocated⟩
    refine hunallocated ?_
    rcases op_of_apply ht hstep hd' with ⟨d, hd, hkeeps⟩ | ⟨heq, -⟩
    · -- each operand is one that the operation had, or one that the change redirects it to
      have hslot : ∀ {v v'}, t.isAllocated v = true → v' = v ∨ change.Redirects v' →
          t'.isAllocated v' = true := by
        rintro v v' hv (rfl | hredirects)
        · exact hin.isAllocated hv
        · exact hin.isAllocated (hcareful.allocated v' hredirects.names)
      rcases hkeeps.operands with hnil | hall
      · rw [hoperands] at hnil
        cases hnil
      · rw [hoperands] at hall
        obtain ⟨x, xs, hx, hxs, hd_operands⟩ := List.forall₂_cons_right_iff.1 hall
        obtain ⟨y, ys, hy, hys, rfl⟩ := List.forall₂_cons_right_iff.1 hxs
        obtain rfl := List.forall₂_nil_right_iff.1 hys
        have hallocated : t.isAllocated x = true ∧ t.isAllocated y = true := by
          by_contra hunallocated'
          exact ih ⟨d, op, x, y, hd, hkeeps.opcode ▸ hop, hsupported, hd_operands, hunallocated'⟩
        exact ⟨hslot hallocated.1 hx, hslot hallocated.2 hy⟩
    · omega

/-- **Rebinding a result to a value.** -/
theorem rebind_runs {new : ValueId} (hs : s.Consistent) (hnew : s.isAllocated new = true) :
    (Store.rebind o new s).Runs Change.Careful id s fun _ _ => True := by
  have hquiet : ∀ {t : Store} {change : Change}, change.CreatesEmpty → (∀ v, ¬ change.Names v) →
      change.Careful t := fun hempty hnames => ⟨hempty, fun v hv => absurd hv (hnames v)⟩
  refine .ask fun (old, block) => ?_
  have hredirect : (Edit.step (fun s => s.replaceAllUses old new) s :
      Outcome Store MutationError Nat).Runs Change.Careful id s fun _ _ => True := by
    refine .step fun n s' hok => .single (.replaceAllUses old new) ⟨trivial, ?_⟩
      (map_eq_ok.2 ⟨_, hok, rfl⟩)
    rintro v rfl
    exact hnew
  refine hredirect.bind hs fun count s₁ hs₁ _ _ => .ask fun remaining => ?_
  by_cases hread : 0 < remaining
  · rw [if_pos hread]
    exact .fail _
  · rw [if_neg hread]
    have hunlink : (Edit.change (fun s => s.unlinkOp block o) s₁ :
        Outcome Store MutationError Unit).Runs Change.Careful id s₁ fun _ _ => True :=
      .change fun _ hok => .single (.unlinkOp block o) (hquiet trivial fun _ hv => hv) hok
    refine hunlink.bind hs₁ fun _ s₂ hs₂ _ _ => ?_
    have hremove : (Edit.change (fun s => s.removeOp o) s₂ :
        Outcome Store MutationError Unit).Runs Change.Careful id s₂ fun _ _ => True :=
      .change fun _ hok => .single (.removeOp o) (hquiet trivial fun _ hv => hv) hok
    exact hremove.bind hs₂ fun _ _ _ _ _ => .pure trivial

end Store

/-! ## Mutations -/

namespace Bench

variable {γ : Type} [RandomSource γ] {b : Bench γ} {o : OpId} {d : Operation} {c : Catalog}

omit [RandomSource γ] in
theorem onStore_ends {ε α : Type} {m : Edit Store ε α} {q : Prop} {answers : α → Store → Prop}
    (h : (m b.store).Ends q answers) : (onStore m b).Ends q fun a b' => answers a b'.store := by
  obtain ⟨s, source⟩ := b
  unfold onStore
  dsimp only at h ⊢
  generalize m s = outcome at h ⊢
  cases h with
  | fault hq => exact .fault hq
  | done hnot ha => exact .done hnot ha
  | failed hnot => exact .failed hnot

omit [RandomSource γ] in
theorem read_operatorOf_ends (hd : b.store.ops[o.index]? = some d) :
    (Edit.read (fun b => b.store.operatorOf o) b : Outcome (Bench γ) MutationError BinaryOp).Ends
      (b.store.Dangles o) fun _ b' => b' = b := by
  unfold Edit.read operatorOf
  dsimp only
  rcases eligibility_cases hd with ⟨hdangles, he⟩ | ⟨hnot, ⟨reason, he⟩ | ⟨op, he⟩⟩
  · rw [he]
    exact .fault hdangles
  · rw [he]
    exact .failed hnot
  · rw [he]
    exact .done hnot rfl

/-- **How the expansion of any operation by a random template ends.** -/
theorem expand_ends (hs : b.store.Consistent) (hhoused : b.store.Housed)
    (hd : b.store.ops[o.index]? = some d) (c : Catalog) :
    (expand c o b).Ends (b.store.Dangles o) fun e b' => b.store.Prepared o d e b'.store := by
  refine (read_operatorOf_ends hd).bind ?_
  rintro hnot op b rfl
  by_cases hnone : (c.templates op).length = 0
  · rw [if_pos hnone]
    exact .failed hnot
  · rw [if_neg hnone]
    have hdraw : (drawing (RandomSource.below (c.templates op).length) b :
        Outcome (Bench γ) MutationError Nat).Ends (b.store.Dangles o) fun _ b' => b'.store = b.store :=
      .done hnot rfl
    refine hdraw.bind fun _ index b' hstore => onStore_ends ?_
    rw [hstore]
    exact Store.expand_ends hs hhoused hd c index

theorem mutate_runs (hs : b.store.Consistent) :
    (mutate c o b).Runs Change.Careful Bench.store b.store fun _ _ => True := by
  refine .ask fun instruction => ?_
  have hexpand := (expand_runs hs (c := c) (o := o)).imp (fun _ _ h => h.toCareful) fun _ _ _ h => h
  refine hexpand.bind hs fun e b' hs' _ hresult => ?_
  exact (onStore_runs (rebind_runs hs' hresult)).bind hs' fun _ _ _ _ _ => .pure trivial

/-- **How the mutation of any operation ends.** -/
theorem mutate_ends (hs : b.store.Consistent) (hhoused : b.store.Housed)
    (hd : b.store.ops[o.index]? = some d) (c : Catalog) :
    (mutate c o b).Ends (b.store.Dangles o) fun _ b' => Run Change.Careful b.store b'.store := by
  suffices hends : (mutate c o b).Ends (b.store.Dangles o) fun _ _ => True from
    hends.runs (mutate_runs hs)
  obtain ⟨s, source⟩ := b
  obtain ⟨instruction, -, hprint⟩ := exists_printOp hd source
  unfold mutate
  rw [Edit.bind_done hprint]
  refine (expand_ends hs hhoused hd c).bind fun hnot e b' hprepared => ?_
  obtain ⟨n, s', hrebind, -⟩ := hprepared.exists_rebind hd
  rw [Edit.bind_done (onStore_done hrebind b'.source)]
  exact .done hnot trivial

/-! ## Rounds -/

/-- **Mutating operations in order does not fault** where none of them dangles. -/
theorem mutateAll_ends {p : Prop} (hp : ¬ p) (picks : List OpId) (hs : b.store.Reachable)
    (hpicks : ∀ o ∈ picks, o.index < b.store.ops.size ∧ ¬ b.store.Dangles o) :
    (mutateAll c picks b).Ends p fun _ b' => Run Change.Careful b.store b'.store := by
  induction picks generalizing b with
  | nil => exact .done hp .refl
  | cons o rest ih =>
    obtain ⟨hlt, hnot⟩ := hpicks o List.mem_cons_self
    have hrest := fun o' ho' => hpicks o' (List.mem_cons_of_mem _ ho')
    have hd := Array.getElem?_eq_getElem hlt
    cases heligible : b.store.isEligible o with
    | error f => exact absurd ((isEligible_eq_error_iff hd).1 heligible).2 hnot
    | ok eligible =>
      rw [mutateAll_cons heligible]
      cases eligible with
      | false => exact ih hs hrest
      | true =>
        have hends := (mutate_ends hs.consistent hs.housed hd c).congr (iff_of_false hnot hp)
        refine hends.bind fun _ record b' hrun => ?_
        -- the operations still to come are there, and do not dangle either
        have hrest' : ∀ o' ∈ rest, o'.index < b'.store.ops.size ∧ ¬ b'.store.Dangles o' := by
          intro o' ho'
          obtain ⟨hlt', hnot'⟩ := hrest o' ho'
          exact ⟨Nat.lt_of_lt_of_le hlt' (hrun.within hs.consistent).ops,
            hrun.not_dangles hs.consistent hlt' hnot'⟩
        refine (ih (hrun.reachable hs) hrest').bind fun _ records b'' hrun' => ?_
        exact .done hp (hrun.trans hrun')

/-- Filtering stops at the first item that cannot be decided. -/
theorem filterM_eq_error {ε α : Type} {f : α → Except ε Bool} {e : ε} {l : List α}
    (hsame : ∀ a ∈ l, ∀ e', f a = .error e' → e' = e) (hbad : ∃ a ∈ l, f a = .error e) :
    l.filterM f = .error e := by
  suffices haux : ∀ acc, l.filterAuxM f acc = .error e by
    rw [List.filterM, haux]
    rfl
  intro acc
  induction l generalizing acc with
  | nil =>
    obtain ⟨a, ha, -⟩ := hbad
    cases ha
  | cons a rest ih =>
    rw [List.filterAuxM]
    cases ha : f a with
    | error e' =>
      obtain rfl := hsame a List.mem_cons_self e' ha
      rfl
    | ok keep =>
      obtain ⟨a', ha', hbad⟩ := hbad
      have hmem : a' ∈ rest := by
        rcases List.mem_cons.1 ha' with rfl | hmem
        · cases ha.symm.trans hbad
        · exact hmem
      exact ih (fun a ha => hsame a (List.mem_cons_of_mem _ ha)) ⟨a', hmem, hbad⟩ _

variable {p : Program} {ops : List OpId} {s : Store}

omit [RandomSource γ] in
/-- **Looking for candidates** faults iff one of the operations dangles, and gives some of them
otherwise. -/
theorem read_candidates_ends (hlisted : p.ops b.store = .ok ops)
    (hops : ∀ o ∈ ops, ∃ d, b.store.ops[o.index]? = some d) :
    (Edit.read (fun b => candidates p b.store) b : Outcome (Bench γ) MutationError (List OpId)).Ends
      (∃ o ∈ ops, b.store.Dangles o) fun found b' => b' = b ∧ ∀ o ∈ found, o ∈ ops := by
  have hfilter : candidates p b.store = ops.filterM b.store.isEligible := by
    unfold candidates
    rw [hlisted]
    rfl
  unfold Edit.read
  dsimp only
  rw [hfilter]
  by_cases hdangles : ∃ o ∈ ops, b.store.Dangles o
  · have hfault : ops.filterM b.store.isEligible = .error .dangling := by
      refine filterM_eq_error (fun o ho f hf => ?_) ?_
      · obtain ⟨d, hd⟩ := hops o ho
        exact ((isEligible_eq_error_iff hd).1 hf).1
      · obtain ⟨o, ho, hdangling⟩ := hdangles
        obtain ⟨d, hd⟩ := hops o ho
        exact ⟨o, ho, (isEligible_eq_error_iff hd).2 ⟨rfl, hdangling⟩⟩
    rw [hfault]
    exact .fault hdangles
  · have hdecided : ∀ o ∈ ops,
        b.store.isEligible o = .ok (decide (b.store.isEligible o = .ok true)) := by
      intro o ho
      obtain ⟨d, hd⟩ := hops o ho
      cases heligible : b.store.isEligible o with
      | error f => exact absurd ⟨o, ho, ((isEligible_eq_error_iff hd).1 heligible).2⟩ hdangles
      | ok eligible => cases eligible <;> simp
    rw [filterM_eq hdecided]
    exact .done hdangles ⟨rfl, fun o ho => List.mem_of_mem_filter ho⟩

/-- A program over a block of the store can be validated after any careful changes. -/
theorem exists_validate {s s' : Store} (hs : s.ReachableEmpty) (hlisted : p.ops s = .ok ops)
    (hrun : Run Change.Careful s s') : ∃ violations, s'.validate p = .ok violations := by
  obtain ⟨target, htarget, -⟩ := ops_eq_ok_iff.1 hlisted
  have hlt := Nat.lt_of_lt_of_le (Array.getElem?_eq_some_iff.1 htarget).1
    (hrun.within hs.reachable.consistent).blocks
  obtain ⟨report⟩ := (hrun.reachableEmpty hs).nonempty_report
    (ops_eq_ok_iff.2 ⟨_, Array.getElem?_eq_getElem hlt, rfl⟩)
  exact ⟨_, report.validate⟩

/-- **How a round ends**, on a program over any block. -/
theorem mutateProgram_ends (hs : b.store.ReachableEmpty)
    (hlisted : p.ops b.store = .ok ops) (c : Catalog) (config : MutationConfig) :
    (mutateProgram c config p b).Ends (∃ o ∈ ops, b.store.Dangles o) fun _ _ => True := by
  have hops : ∀ o ∈ ops, ∃ d, b.store.ops[o.index]? = some d := by
    intro o ho
    obtain ⟨d, hd, -⟩ := Option.bind_eq_some_iff.1 ((hs.mem_ops_iff hlisted).1 ho)
    exact ⟨d, hd⟩
  refine (read_candidates_ends hlisted hops).bind ?_
  rintro hnot found b ⟨rfl, hfound⟩
  by_cases hempty : found.isEmpty = true
  · rw [if_pos hempty]
    exact .done hnot trivial
  rw [if_neg hempty]
  have hdraw : (drawing (drawPicks config.maxPicks found) b :
      Outcome (Bench γ) MutationError (List OpId)).Ends (∃ o ∈ ops, b.store.Dangles o)
        fun picks b' => b'.store = b.store ∧ ∀ o ∈ picks, o ∈ found :=
    .done hnot ⟨rfl, (drawPicks_sublist config.maxPicks found b.source).subset⟩
  refine hdraw.bind fun _ picks b₁ ⟨hstore, hpicked⟩ => ?_
  have hpicks : ∀ o ∈ picks, o.index < b₁.store.ops.size ∧ ¬ b₁.store.Dangles o := by
    intro o ho
    have hmem := hfound o (hpicked o ho)
    obtain ⟨d, hd⟩ := hops o hmem
    rw [hstore]
    exact ⟨(Array.getElem?_eq_some_iff.1 hd).1, fun hdangling => hnot ⟨o, hmem, hdangling⟩⟩
  refine (mutateAll_ends hnot picks (hstore ▸ hs.reachable) hpicks).bind fun _ records b₂ hrun => ?_
  cases hvalidates : config.validate with
  | false => exact .done hnot trivial
  | true =>
    -- the program is still there to be validated
    obtain ⟨violations, hvalidate⟩ := exists_validate hs hlisted (hstore ▸ hrun)
    have hread : (Edit.read fun b => b.store.validate p : Edit (Bench γ) MutationError _) b₂ =
        .done violations b₂ := Edit.read_done (lift_eq_ok.2 hvalidate)
    rw [if_pos rfl, Edit.bind_done hread]
    split
    · exact .failed hnot
    · exact .done hnot trivial

/-- **Mutation faults at operations that dangle, and nowhere else**, in every store that changes
lead to from the empty one where all blocks are created empty. The operation may be placed or not,
or have been removed, and the program may be ill-formed in any way. -/
theorem faultsWhen_dangles (hs : b.store.ReachableEmpty) (c : Catalog) :
    (∀ o : OpId, o.index < b.store.ops.size →
      (∀ f, b.store.isEligible o = .error f ↔ f = .dangling ∧ b.store.Dangles o) ∧
      (∀ index, (Store.expand c o index b.store).FaultsWhen (b.store.Dangles o)) ∧
      (expand c o b).FaultsWhen (b.store.Dangles o) ∧
      (mutate c o b).FaultsWhen (b.store.Dangles o)) ∧
    ∀ (p : Program) config target, b.store.blocks[p.entry.index]? = some target →
      (mutateProgram c config p b).FaultsWhen (∃ o ∈ target.ops, b.store.Dangles o) := by
  have hconsistent := hs.reachable.consistent
  have hhoused := hs.reachable.housed
  refine ⟨fun o hlt => ?_, fun p config target htarget =>
    (mutateProgram_ends hs (ops_eq_ok_iff.2 ⟨target, htarget, rfl⟩) c config).faultsWhen⟩
  have hd := Array.getElem?_eq_getElem hlt
  exact ⟨fun f => isEligible_eq_error_iff hd,
    fun index => (Store.expand_ends hconsistent hhoused hd c index).faultsWhen,
    (expand_ends hconsistent hhoused hd c).faultsWhen,
    (mutate_ends hconsistent hhoused hd c).faultsWhen⟩

/-- A store whose two operations read a number that no value has. The first one dangles, and the
`ret` does not. -/
def gapStore : Store where
  ops := #[⟨.binary .add, [⟨0⟩, ⟨5⟩], some (.int .w8), some ⟨1⟩, some ⟨0⟩⟩,
    ⟨.ret, [⟨5⟩], none, none, some ⟨0⟩⟩]
  values := #[⟨.argument ⟨0⟩ 0, .int .w8⟩, ⟨.result ⟨0⟩, .int .w8⟩]
  blocks := #[⟨[.int .w8], [⟨0⟩], [⟨0⟩, ⟨1⟩]⟩]
  chains := ⟨#[some [⟨⟨0⟩, 0⟩], none, none, none, none, some [⟨⟨0⟩, 1⟩, ⟨⟨1⟩, 0⟩]]⟩

theorem reachableEmpty_gapStore : gapStore.ReachableEmpty :=
  .foldlM .empty (by decide)
    (show [.createBlock [.int .w8] [], .createOp ⟨.binary .add, [⟨0⟩, ⟨5⟩], some (.int .w8), none⟩,
        .pushOp ⟨0⟩ ⟨0⟩, .createOp ⟨.ret, [⟨5⟩], none, none⟩, .pushOp ⟨0⟩ ⟨1⟩].foldlM Change.apply
          Store.empty =
      .ok gapStore from rfl)

/-- The sum dangles and the `ret` does not, so a round on a program of both faults. -/
theorem faultsWhen_dangles_gap :
    let b : Bench Script := ⟨gapStore, Script.ofWords [5]⟩
    (mutate Catalog.standard ⟨0⟩ b = .fault .dangling ∧
        ∀ f, mutate Catalog.standard ⟨1⟩ b ≠ .fault f) ∧
      mutateProgram Catalog.standard {} ⟨"gap", ⟨0⟩⟩ b = .fault .dangling := by
  intro b
  have hsum : gapStore.Dangles ⟨0⟩ := ⟨_, .add, ⟨0⟩, ⟨5⟩, rfl, rfl, rfl, rfl, by decide⟩
  have hret : ¬ gapStore.Dangles ⟨1⟩ := by
    rintro ⟨d, op, x, y, hd, hop, -⟩
    cases hd
    cases hop
  obtain ⟨hops, hprograms⟩ := faultsWhen_dangles (b := b) reachableEmpty_gapStore Catalog.standard
  obtain ⟨-, -, -, hmutate⟩ := hops ⟨0⟩ (by decide)
  obtain ⟨-, -, -, hmutate'⟩ := hops ⟨1⟩ (by decide)
  refine ⟨⟨(hmutate _).2 ⟨rfl, hsum⟩, fun f hfault => hret ((hmutate' f).1 hfault).2⟩, ?_⟩
  exact (hprograms ⟨"gap", ⟨0⟩⟩ {} _ rfl _).2 ⟨rfl, ⟨0⟩, by decide, hsum⟩

/-- Asking whether the sum is eligible faults, and so does a round on the program. -/
theorem mutateProgram_fault_gap :
    let p : Program := ⟨"gap", ⟨0⟩⟩
    let b : Bench Script := ⟨gapStore, Script.ofWords [5]⟩
    gapStore.ReachableEmpty ∧ p.ops gapStore = .ok [⟨0⟩, ⟨1⟩] ∧
      gapStore.isEligible ⟨0⟩ = .error .dangling ∧
      mutateProgram Catalog.standard {} p b = .fault .dangling :=
  ⟨reachableEmpty_gapStore, by decide, by decide, rfl⟩

end Bench

end Mba
