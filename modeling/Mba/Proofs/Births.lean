import Mba.Proofs.Growth

/-!
# Values that are new

The number of a value is known before there is a value: it is the next one. Operations may read it,
and it may have a use chain. So a new value is read by the operations that read its number before,
and by none of the others that were there.

What numbers were handed over decides it. One that no change has named is read by nothing when its
value is allocated, and nor is any in a store whose operands are all values. A store stays like that
under calls of a builder, if the outputs of a `ret` are values, under expansions and readings. Later
on it takes a change that redirects operands to the value to make an older operation read it.

Results:
* `Allocates.slot?_eq`: allocating a value changes no slot of the operations that are there.
* `Run.slot?_of_allocates`: who reads a value after a run that redirects nothing to it.
* `Unread.of_names`, `Unread.of_operandsAllocated`: numbers that nothing reads.
* `Grows.exists_allocates`: the values that a builder, a reading or an expansion allocates.
* `Reachable.births_spec`: the readers of a new value.
-/

namespace Mba.Store

variable {s s' s'' : Store} {v : ValueId} {use : Use}

/-- **Allocating a value changes no slot** of the operations that are there. -/
theorem Allocates.slot?_eq (h : s.Allocates v s') (hs : s.Consistent)
    (hlt : use.user.index < s.ops.size) : s'.slot? use = s.slot? use := by
  obtain ⟨⟨change, hstep⟩, hbefore, hafter⟩ := h
  -- a change that leaves the values as they are does not allocate one
  have hvalues : s'.values ≠ s.values := by
    intro heq
    rw [isAllocated, heq] at hafter
    exact Bool.false_ne_true (hbefore.symm.trans hafter)
  cases change with
  | createBlock argTys ops =>
    cases hstep
    rfl
  | createOp draft =>
    obtain ⟨⟨o, s'⟩, hok, rfl⟩ := map_eq_ok.1 hstep
    obtain ⟨-, hcreated⟩ := createOp_ok hok
    exact (hcreated.bind_ops _ _).trans (if_neg (Nat.ne_of_lt hlt))
  | pushOp b o =>
    obtain ⟨-, target, -, -, -, rfl⟩ := pushOp_ok hstep
    exact absurd rfl hvalues
  | insertOpBefore b before o =>
    obtain ⟨-, target, place, -, -, -, -, rfl⟩ := insertOpBefore_ok hstep
    exact absurd rfl hvalues
  | unlinkOp b o =>
    obtain ⟨d, target, -, -, rfl⟩ := unlinkOp_ok hstep
    refine absurd ?_ hvalues
    split <;> rfl
  | removeOp o =>
    obtain ⟨d, -, -, -, rfl⟩ := removeOp_ok hstep
    exact absurd (sameOwners_dropOperands s o d.operands).values hvalues
  | replaceAllUses old new =>
    obtain ⟨⟨n, s'⟩, hok, rfl⟩ := map_eq_ok.1 hstep
    obtain rfl := replaceAllUses_ok hs.chains hok
    refine absurd ?_ hvalues
    split <;> rfl

/-! ## Numbers that nothing reads -/

/-- No slot reads the number. -/
def Unread (s : Store) (v : ValueId) : Prop :=
  ∀ use, s.slot? use ≠ some v

/-- **A number that no change has named** is read by nothing. -/
theorem Unread.of_names (h : Run (fun _ change => ¬ change.Names v) Store.empty s) : s.Unread v := by
  intro use hread
  have hempty := h.slot?_of_names consistent_empty hread
  simp [slot?, empty] at hempty

theorem Unread.of_operandsAllocated (h : s.OperandsAllocated) (hv : s.isAllocated v = false) :
    s.Unread v := by
  intro use hread
  rw [h use v hread] at hv
  cases hv

/-- **Who reads a value** that was allocated in `s`, after a run that redirects nothing to it:
operations that read its number before, and newer ones. -/
theorem Run.slot?_of_allocates (h : s.Allocates v s') (hs : s.Consistent) (hs' : s'.Consistent)
    (hrun : Run (fun _ change => ¬ change.Redirects v) s' s'') (hread : s''.slot? use = some v) :
    s.slot? use = some v ∨ s.ops.size ≤ use.user.index := by
  rcases Nat.lt_or_ge use.user.index s.ops.size with hlt | hge
  · obtain ⟨change, hstep⟩ := h.change
    have hlt' := Nat.lt_of_lt_of_le hlt (within_of_apply hs hstep).ops
    exact .inl ((h.slot?_eq hs hlt).symm.trans (hrun.slot?_of_redirects hs' hlt' hread))
  · exact .inr hge

/-- **The values that a builder, a reading or an expansion allocates** are read by operations which
are created with them or after them. -/
theorem Grows.exists_allocates (h : s.Grows s') (hs : s.Reachable) (ha : s.OperandsAllocated)
    (hbefore : s.isAllocated v = false) (hafter : s'.isAllocated v = true) :
    ∃ t t', Run Change.Growing s t ∧ t.Allocates v t' ∧ Run Change.Growing t' s' ∧
      (∀ o, s'.result? o = some v → o.index = t.ops.size) ∧
      ∀ use, use ∈ s'.uses v → t.ops.size ≤ use.user.index := by
  obtain ⟨t, t', ht, hallocates, ht'⟩ := (h.run hs.consistent).exists_allocates hbefore hafter
  have hconsistent := ht.consistent hs.consistent
  obtain ⟨change, hstep⟩ := hallocates.change
  have hconsistent' := hconsistent.step hstep
  refine ⟨t, t', ht, hallocates, ht', fun o hresult => ?_, fun use huse => ?_⟩
  · exact hallocates.index_eq hconsistent
      (ht'.result?_of_allocated hconsistent' hallocates.after hresult)
  · have hread := ((ht'.consistent hconsistent').chains.mem_uses v use).1 huse
    have hrun := ht'.mono fun _ _ hgrowing => hgrowing.redirects v
    refine (Run.slot?_of_allocates hallocates hconsistent hconsistent' hrun hread).resolve_left ?_
    have hkept := (ht.mono fun _ _ hgrowing => hgrowing.toCareful).operandsAllocated hs.consistent ha
    exact Unread.of_operandsAllocated hkept hallocates.before use

/-- **The readers of a new value.** An operation that is there when the value is allocated reads its
number afterwards iff it has read it before. As long as nothing is redirected to the value, its
chain lists the slots that read it: slots that read its number before the value was there, and slots
of operations created with it or after it. There are none of the first kind if no change has named
the number before, and none if all operands are values. These are values still after a call of a
builder, a reading or an expansion, and what such an edit allocates is read by operations created
with it or after it only. -/
theorem Reachable.births_spec (hs : s.Reachable) :
    (∀ v s', s.Allocates v s' →
      (∀ use : Use, use.user.index < s.ops.size →
        (s'.slot? use = some v ↔ s.slot? use = some v)) ∧
      ∀ s'', Run (fun _ change => ¬ change.Redirects v) s' s'' →
        (∀ use, use ∈ s''.uses v ↔ s''.slot? use = some v) ∧
        (∀ use, s''.slot? use = some v → s.slot? use = some v ∨ s.ops.size ≤ use.user.index) ∧
        (Run (fun _ change => ¬ change.Names v) Store.empty s ∨ s.OperandsAllocated →
          ∀ use, use ∈ s''.uses v → s.ops.size ≤ use.user.index)) ∧
    (s.OperandsAllocated → ∀ s', s.Grows s' → s'.OperandsAllocated ∧
      ∀ v, s.isAllocated v = false → s'.isAllocated v = true →
        ∃ t t', Run Change.Growing s t ∧ t.Allocates v t' ∧ Run Change.Growing t' s' ∧
          (∀ o, s'.result? o = some v → o.index = t.ops.size) ∧
          ∀ use, use ∈ s'.uses v → t.ops.size ≤ use.user.index) := by
  have hconsistent := hs.consistent
  refine ⟨fun v s' h => ⟨fun use hlt => by rw [h.slot?_eq hconsistent hlt], fun s'' hrun => ?_⟩,
    fun ha s' h => ⟨?_, fun v hbefore hafter => h.exists_allocates hs ha hbefore hafter⟩⟩
  · obtain ⟨change, hstep⟩ := h.change
    have hconsistent' := hconsistent.step hstep
    have hchain := (hrun.consistent hconsistent').chains.mem_uses v
    have hreaders : ∀ use, s''.slot? use = some v →
        s.slot? use = some v ∨ s.ops.size ≤ use.user.index := fun use hread =>
      Run.slot?_of_allocates h hconsistent hconsistent' hrun hread
    refine ⟨hchain, hreaders, fun hhistory use huse => ?_⟩
    have hunread : s.Unread v := by
      rcases hhistory with hnames | ha
      · exact .of_names hnames
      · exact .of_operandsAllocated ha h.before
    exact (hreaders use ((hchain use).1 huse)).resolve_left (hunread use)
  · exact ((h.run hconsistent).mono fun _ _ hgrowing => hgrowing.toCareful).operandsAllocated
      hconsistent ha

/-- A store that holds the negation of an input. -/
def negationStore : Store where
  ops := #[⟨.unary .not, [⟨0⟩], some (.int .w8), some ⟨1⟩, some ⟨0⟩⟩]
  values := #[⟨.argument ⟨0⟩ 0, .int .w8⟩, ⟨.result ⟨0⟩, .int .w8⟩]
  blocks := #[⟨[.int .w8], [⟨0⟩], [⟨0⟩]⟩]
  chains := ⟨#[some [⟨⟨0⟩, 0⟩]]⟩

theorem reachable_negationStore : negationStore.Reachable :=
  Reachable.foldlM .empty
    (show [.createBlock [.int .w8] [], .createOp ⟨.unary .not, [⟨0⟩], some (.int .w8), none⟩,
        .pushOp ⟨0⟩ ⟨0⟩].foldlM Change.apply Store.empty = .ok negationStore from rfl)

/-- The negation of the result is read by the `ret` that is created next, and the one that a builder
emits by nothing older. -/
theorem births_spec_negation :
    (∃ s' s'', negationStore.Allocates ⟨2⟩ s' ∧
        Change.apply s' (.createOp ⟨.ret, [⟨2⟩], none, none⟩) = .ok s'' ∧
        s''.uses ⟨2⟩ = [⟨⟨2⟩, 0⟩] ∧ ∀ use, use ∈ s''.uses ⟨2⟩ → 1 ≤ use.user.index) ∧
      ∃ b : Builder, negationStore.Grows b.store ∧ b.store.isAllocated ⟨2⟩ = true ∧
        b.store.OperandsAllocated ∧ ∀ use, use ∈ b.store.uses ⟨2⟩ → 1 ≤ use.user.index := by
  have hallocated : negationStore.OperandsAllocated := by decide
  obtain ⟨hbirths, hgrows⟩ := Reachable.births_spec reachable_negationStore
  constructor
  · have hborn : negationStore.Allocates ⟨2⟩ _ :=
      ⟨⟨.createOp ⟨.unary .not, [⟨1⟩], some (.int .w8), none⟩, rfl⟩, by decide, by decide⟩
    obtain ⟨-, hreaders⟩ := hbirths ⟨2⟩ _ hborn
    obtain ⟨-, -, hnew⟩ := hreaders _ (.single (.createOp ⟨.ret, [⟨2⟩], none, none⟩) id rfl)
    exact ⟨_, _, hborn, rfl, rfl, hnew (.inr hallocated)⟩
  · have hrun : ((Builder.Call.unary .not ⟨1⟩).run
        (Builder.start negationStore (.atEnd ⟨0⟩))).state? = some _ := rfl
    have hcall : negationStore.Grows _ := .call (by nofun) hrun
    obtain ⟨hallocated', hvalues⟩ := hgrows hallocated _ hcall
    obtain ⟨t, t', ht, -, -, -, huses⟩ := hvalues ⟨2⟩ (by decide) (by decide)
    have hle := (ht.within reachable_negationStore.consistent).ops
    exact ⟨_, hcall, by decide, hallocated', fun use huse => Nat.le_trans hle (huses use huse)⟩

/-- A store that holds a program of one operation, a `ret` of the next number but one. -/
def forwardStore : Store where
  ops := #[⟨.ret, [⟨2⟩], none, none, some ⟨0⟩⟩]
  values := #[⟨.argument ⟨0⟩ 0, .int .w8⟩]
  blocks := #[⟨[.int .w8], [⟨0⟩], [⟨0⟩]⟩]
  chains := ⟨#[none, none, some [⟨⟨0⟩, 0⟩]]⟩

/-- A value may be read by an operation that was there before it. Here it is the second input of
another program, and the operation a `ret` that a builder emitted at the end of the first. -/
theorem allocates_read :
    let s := (Store.empty.createBlock [.int .w8] []).2
    let s' := (forwardStore.createBlock [.int .w8, .int .w8] []).2
    (∃ answer, Store.build (.atEnd ⟨0⟩) (Builder.ret [⟨2⟩]) s = .done answer forwardStore) ∧
      forwardStore.ReachableEmpty ∧ forwardStore.Allocates ⟨2⟩ s' ∧
      (⟨0⟩ : OpId).index < forwardStore.ops.size ∧ s'.slot? ⟨⟨0⟩, 0⟩ = some ⟨2⟩ ∧
      (⟨⟨0⟩, 0⟩ : Use) ∈ s'.uses ⟨2⟩ := by
  refine ⟨⟨_, rfl⟩, ?_, ⟨⟨.createBlock [.int .w8, .int .w8] [], rfl⟩, by decide, by decide⟩, by decide,
    by decide, by decide⟩
  exact .foldlM .empty (by decide)
    (show [.createBlock [.int .w8] [], .createOp ⟨.ret, [⟨2⟩], none, none⟩, .pushOp ⟨0⟩ ⟨0⟩].foldlM
      Change.apply Store.empty = .ok forwardStore from rfl)

end Mba.Store
