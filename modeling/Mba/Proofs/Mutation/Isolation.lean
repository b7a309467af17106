import Mba.Proofs.Mutation.Round
import Mba.Proofs.Program.Frame

/-!
# Programs that are not mutated

A store holds any number of programs, and redirecting the uses of a value looks at all of them. Two
valid programs of different blocks do not read each other's values, though: the values of either are
read by its own operations only, and these are placed in its block. So what a round does to one of
them leaves the part of the other one as it is.

Results:
* `Valid.not_defines`: an operation of a valid program reads no value of another one.
* `Replacement.sameOn`: a replacement leaves the part of another program as it is.
* `mutateProgram_undisturbed`: so does a round, however it ends.
-/

namespace Mba

namespace Store

variable {s s' : Store} {p q : Program} {ops others : List OpId} {c : Catalog} {o : OpId}
  {op : BinaryOp} {t : Template}

/-! ## Two valid programs -/

/-- Valid programs of different blocks have no operation in common. -/
theorem Valid.notMem (hp : s.Valid p ops) (hq : s.Valid q others) (hne : p.entry ≠ q.entry)
    (ho : o ∈ ops) : o ∉ others := by
  intro ho'
  obtain ⟨d, hd, hfits⟩ := hp.entry ho
  obtain ⟨d', hd', hfits'⟩ := hq.entry ho'
  rw [hd] at hd'
  cases hd'
  exact hne (Option.some.inj (hfits.parent.symm.trans hfits'.parent))

/-- **An operation of a valid program reads no value of another one.** -/
theorem Valid.not_defines (hp : s.Valid p ops) (hq : s.Valid q others) (hne : p.entry ≠ q.entry)
    (ho : o ∈ ops) {d : Operation} (hd : s.ops[o.index]? = some d) {v : ValueId}
    (hv : v ∈ d.operands) : ¬ s.Defines q others v := by
  intro hdefines
  obtain ⟨slot, hslot⟩ := List.getElem?_of_mem hv
  refine hp.notMem hq hne ho (hq.closed v ⟨o, slot⟩ hdefines ?_)
  rw [slot?, hd]
  exact hslot

/-! ## Replacements elsewhere -/

/-- **A replacement leaves the part of another program as it is.** -/
theorem Replacement.sameOn (r : Replacement s p o op t) (hq : s.Valid q others)
    (hne : p.entry ≠ q.entry) : SameOn (Part.ofProgram s q others) s r.result := by
  have hs := r.site.consistent.owned
  have ho : o ∈ r.before ++ o :: r.after := by simp
  have hother : o ∉ others := r.site.valid.notMem hq hne ho
  have hold : ¬ s.Defines q others r.old := not_defines_of_notMem hs r.result?_old hother
  have hreads : ∀ v, s.Defines q others v → v ∉ r.entry.operands := fun v hv hmem =>
    r.site.valid.not_defines hq hne ho r.entry_eq hmem hv
  constructor
  case ops =>
    intro o' ho'
    obtain ⟨d, hd, hfits⟩ := hq.entry ho'
    have hnot : r.old ∉ d.operands := fun hmem => hold (hfits.operands _ hmem)
    rw [r.ops_of_ne (fun heq => hother (heq ▸ ho')) hd, Operation.rename_of_notMem _ hnot, hd]
  case values =>
    intro v hv
    rw [r.rebound.owners.values, r.emission.grown.values _ (of_decide_eq_true (hv.isAllocated hs))]
  case uses =>
    intro v hv
    have hlt : v.index < s.values.size := of_decide_eq_true (hv.isAllocated hs)
    have hv' := hreads v hv
    rw [r.operands] at hv'
    rw [r.rebound.uses v, r.coded.1.uses v hlt]
    · exact fun heq => hv' (heq ▸ List.mem_cons_self)
    · exact fun heq => hv' (heq ▸ List.mem_cons_of_mem _ List.mem_cons_self)
    · exact fun heq => hold (heq ▸ hv)
    · intro heq
      have := r.isNew
      rw [← heq] at this
      omega
    · intro d hd
      rw [r.emission.grown.ops_of_some r.entry_eq] at hd
      cases hd
      exact hreads v hv
  case blocks =>
    intro b hb
    obtain rfl : b = q.entry := hb
    have hindex : p.entry.index ≠ q.entry.index := fun heq => by
      cases hp : p.entry; cases hq : q.entry
      rw [hp, hq] at heq hne
      exact hne (congrArg BlockId.mk heq)
    rw [r.rebound.blocks, Array.getElem?_modify, if_neg hindex,
      r.emission.grown.blocks _ (Ne.symm hindex)]

/-- **Any number of replacements** leaves the part of another program as it is. -/
theorem Rewrites.sameOn (h : Rewrites c p s s') (hs : s.Mutable p) (hq : s.Valid q others)
    (hne : p.entry ≠ q.entry) : SameOn (Part.ofProgram s q others) s s' := by
  induction h with
  | refl s => exact .refl _ s
  | @step s s' o op t ht r rest ih =>
    have hfirst := r.sameOn hq hne
    have hpart : Part.ofProgram r.result q others = Part.ofProgram s q others := by
      have hvalues : r.result.Defines q others = s.Defines q others :=
        funext fun v => propext hfirst.defines_iff
      rw [Part.ofProgram, Part.ofProgram, hvalues]
    have hrest := ih r.mutable (hfirst.valid hs.consistent r.consistent hq)
    rw [hpart] at hrest
    exact hfirst.trans hrest

/-- Nothing that can be told of a program differs between two stores: its operations and their
entries, its values and who reads them, its text, what is wrong with it, and how it runs. -/
structure Undisturbed (s s' : Store) (q : Program) : Prop where
  listed : q.ops s' = q.ops s
  inputs : q.inputs s' = q.inputs s
  ops : ∀ others, q.ops s = .ok others → ∀ o ∈ others, s'.ops[o.index]? = s.ops[o.index]?
  values : ∀ others, q.ops s = .ok others → ∀ v, s.Defines q others v →
    s'.values[v.index]? = s.values[v.index]? ∧ s'.uses v = s.uses v
  print : q.print s' = q.print s
  validate : s'.validate q = s.validate q
  run : ∀ args, s'.run q args = s.run q args

theorem SameOn.undisturbed (h : SameOn (Part.ofProgram s q others) s s') (hs : s.Owned)
    (hq : s.Valid q others) : s.Undisturbed s' q := by
  have hclosed := hq.flow.closed_part hs hq.listed
  have hlisted : ∀ others', q.ops s = .ok others' → others' = others := fun others' h =>
    Except.ok.inj (h.symm.trans hq.listed)
  exact {
    listed := h.listed_eq rfl
    inputs := h.args_eq rfl
    ops := fun others' hothers o ho => h.ops o (hlisted _ hothers ▸ ho)
    values := fun others' hothers v hv => by
      rw [hlisted _ hothers] at hv
      exact ⟨h.values v hv, h.uses v hv⟩
    print := h.print_eq hclosed rfl
    validate := h.validate_eq hclosed rfl
    run := h.run_eq hclosed rfl }

end Store

namespace Bench

open Store

variable {γ : Type} [RandomSource γ]

/-- **A round on one program leaves all others undisturbed**, whatever it gives. In a reachable
store in which all operands are values, let two programs of different blocks be valid. A round on
the first one never faults, and whether it comes to its end or stops, nothing that can be told of
the second program has changed. -/
theorem mutateProgram_undisturbed (c : Catalog) (config : MutationConfig) {p q : Program}
    {b : Bench γ} (hreach : b.store.Reachable) (ha : b.store.OperandsAllocated)
    (hp : b.store.validate p = .ok []) (hq : b.store.validate q = .ok [])
    (hne : p.entry ≠ q.entry) :
    match mutateProgram c config p b with
    | .done _ b' | .failed _ b' => b.store.Undisturbed b'.store q
    | .fault _ => False := by
  have hb : b.store.Mutable p := .of_validate hreach.consistent ha hp
  obtain ⟨others, hvalid⟩ := (validate_eq_nil_iff hreach.consistent q).1 hq
  have hrewrites : ∀ {s' : Store}, Rewrites c p b.store s' → b.store.Undisturbed s' q := fun h =>
    (h.sameOn hb hvalid hne).undisturbed hreach.consistent.owned hvalid
  obtain ⟨outcome, hend, houtcome⟩ := mutateProgram_outcome c config.maxPicks hb
  rw [show mutateProgram c config p b = outcome from houtcome config.validate]
  cases hend with
  | idle _ => exact hrewrites (.refl _)
  | mutated _ rewrites => exact hrewrites rewrites
  | stopped _ _ rewrites => exact hrewrites rewrites

/-- A store that holds the programs of a sum and of an exclusive or, built at the same time. -/
def pairStore : Store where
  ops := #[⟨.binary .add, [⟨0⟩, ⟨1⟩], some (.int .w8), some ⟨3⟩, some ⟨0⟩⟩,
    ⟨.binary .xor, [⟨2⟩, ⟨2⟩], some (.int .w8), some ⟨4⟩, some ⟨1⟩⟩,
    ⟨.ret, [⟨3⟩], none, none, some ⟨0⟩⟩, ⟨.ret, [⟨4⟩], none, none, some ⟨1⟩⟩]
  values := #[⟨.argument ⟨0⟩ 0, .int .w8⟩, ⟨.argument ⟨0⟩ 1, .int .w8⟩, ⟨.argument ⟨1⟩ 0, .int .w8⟩,
    ⟨.result ⟨0⟩, .int .w8⟩, ⟨.result ⟨1⟩, .int .w8⟩]
  blocks := #[⟨[.int .w8, .int .w8], [⟨0⟩, ⟨1⟩], [⟨0⟩, ⟨2⟩]⟩, ⟨[.int .w8], [⟨2⟩], [⟨1⟩, ⟨3⟩]⟩]
  chains := ⟨#[some [⟨⟨0⟩, 0⟩], some [⟨⟨0⟩, 1⟩], some [⟨⟨1⟩, 0⟩, ⟨⟨1⟩, 1⟩], some [⟨⟨2⟩, 0⟩],
    some [⟨⟨3⟩, 0⟩]]⟩

theorem reachable_pairStore : pairStore.Reachable :=
  Reachable.foldlM .empty
    (show [.createBlock [.int .w8, .int .w8] [], .createBlock [.int .w8] [],
        .createOp ⟨.binary .add, [⟨0⟩, ⟨1⟩], some (.int .w8), none⟩, .pushOp ⟨0⟩ ⟨0⟩,
        .createOp ⟨.binary .xor, [⟨2⟩, ⟨2⟩], some (.int .w8), none⟩, .pushOp ⟨1⟩ ⟨1⟩,
        .createOp ⟨.ret, [⟨3⟩], none, none⟩, .pushOp ⟨0⟩ ⟨2⟩,
        .createOp ⟨.ret, [⟨4⟩], none, none⟩, .pushOp ⟨1⟩ ⟨3⟩].foldlM Change.apply Store.empty =
      .ok pairStore from rfl)

theorem mutateProgram_undisturbed_pair :
    let p : Program := ⟨"sum", ⟨0⟩⟩
    let q : Program := ⟨"zero", ⟨1⟩⟩
    let b : Bench Script := ⟨pairStore, Script.ofWords [5]⟩
    ∃ report b', mutateProgram Catalog.standard {} p b = .done (some report) b' ∧
      pairStore.Undisturbed b'.store q := by
  intro p q b
  have hend := mutateProgram_undisturbed (p := p) (q := q) (b := b) Catalog.standard {}
    reachable_pairStore (by decide) (by decide +kernel) (by decide +kernel) (by decide)
  have hdone : ((mutateProgram Catalog.standard {} p b).done?.bind (·.1)).isSome = true := by
    decide +kernel
  obtain ⟨report, hreport⟩ := Option.isSome_iff_exists.1 hdone
  obtain ⟨⟨report?, b'⟩, hfound, rfl⟩ := Option.bind_eq_some_iff.1 hreport
  have heq := Outcome.done?_eq_some_iff.1 hfound
  rw [heq] at hend
  exact ⟨report, b', heq, hend⟩

end Bench

end Mba
