import Mathlib.Data.List.Perm.Subperm
import Mba.Catalog.Standard
import Mba.Proofs.Mutation.Replacement
import Mba.Random.Script

/-!
# What a round does to a program

A round replaces operations one after another. The operations picked at its start stay eligible or
lose their operands, so a replacement never meets one that is out of place.

Results:
* `Rewrites.mutable`: a program that can be mutated still can be after any number of replacements.
* `candidates_eq`: the candidates of a valid program are its eligible operations, in order.
* `drawPicks_sublist`, `drawPicks_length`: some of the candidates are picked, in their order, at
  least one and not too many.
* `mutateAll_outcome`: replacing the picked operations in order comes to its end, or stops at an
  operator without templates.
* `mutateProgram_outcome`: a round ends in one of three ways, whether it validates or not.
* `mutateProgram_spec`: a round on a valid program never faults, stops only at an operator without
  templates, and leaves the program valid.
-/

namespace Mba

namespace Store

/-- A valid program over a consistent store in which all operands are values. -/
structure Mutable (s : Store) (p : Program) : Prop where
  consistent : s.Consistent
  allocated : s.OperandsAllocated
  valid : ∃ ops, s.Valid p ops

variable {s s' : Store} {p : Program} {c : Catalog} {o : OpId} {op : BinaryOp} {t : Template}

theorem Mutable.of_validate (hs : s.Consistent) (ha : s.OperandsAllocated)
    (hv : s.validate p = .ok []) : s.Mutable p :=
  ⟨hs, ha, (validate_eq_nil_iff hs p).1 hv⟩

theorem Mutable.validate (h : s.Mutable p) : s.validate p = .ok [] :=
  (validate_eq_nil_iff h.consistent p).2 h.valid

theorem Replacement.mutable (r : Replacement s p o op t) : r.result.Mutable p :=
  ⟨r.consistent, r.allocated, _, r.valid⟩

/-! ## Several replacements -/

/-- Replacements by templates of a catalog, one after another. -/
inductive Rewrites (c : Catalog) (p : Program) : Store → Store → Prop
  | refl (s : Store) : Rewrites c p s s
  | step {s s' : Store} {o : OpId} {op : BinaryOp} {t : Template} (ht : t ∈ c.templates op)
      (r : Replacement s p o op t) (rest : Rewrites c p r.result s') : Rewrites c p s s'

/-- **A program that can be mutated still can be after any number of replacements.** -/
theorem Rewrites.mutable (h : Rewrites c p s s') (hs : s.Mutable p) : s'.Mutable p := by
  induction h with
  | refl s => exact hs
  | step _ r _ ih => exact ih r.mutable

theorem Rewrites.trans {s'' : Store} (h : Rewrites c p s s') (h' : Rewrites c p s' s'') :
    Rewrites c p s s'' := by
  induction h with
  | refl s => exact h'
  | step ht r _ ih => exact .step ht r (ih h')

/-! ## Picked operations -/

/-- The eligible ones of a list of operations. -/
def eligibleOps (s : Store) (ops : List OpId) : List OpId :=
  ops.filter fun o => s.isEligible o = .ok true

theorem mem_eligibleOps {ops : List OpId} :
    o ∈ s.eligibleOps ops ↔ o ∈ ops ∧ ∃ op, s.eligibility o = .ok op := by
  rw [eligibleOps, List.mem_filter, decide_eq_true_eq, isEligible_eq_true_iff]

/-- An operation of a valid program is eligible if its opcode and the type of its result say so. -/
theorem Valid.eligibility_eq_ok {ops : List OpId} (hv : s.Valid p ops) (ho : o ∈ ops) {d : Operation}
    (hd : s.ops[o.index]? = some d) (hop : d.opcode = .binary op) (hsupported : op.isSupported = true)
    {w : Width} (hty : d.resultTy? = some (.int w)) : s.eligibility o = .ok op := by
  obtain ⟨d', hd', hfits⟩ := hv.entry ho
  obtain rfl : d = d' := Option.some.inj (hd.symm.trans hd')
  have htyped := typeDefect?_eq_none_iff_wellTyped.1 hfits.typed
  obtain ⟨opcode, operands, resultTy?, result?, parent?⟩ := d
  obtain rfl : opcode = .binary op := hop
  obtain rfl : resultTy? = some (.int w) := hty
  cases htyped with
  | binary hx hy _ => exact Store.eligibility_eq_ok hd rfl hsupported rfl hx hy rfl

/-- An operation that a round has picked: it is listed in the program, or was replaced and has no
operands. -/
def Pending (s : Store) (p : Program) (o : OpId) : Prop :=
  (∃ ops, s.Valid p ops ∧ o ∈ ops) ∨ ∃ d, s.ops[o.index]? = some d ∧ d.operands = []

/-- **A pending operation is still pending after a replacement.** -/
theorem Replacement.pending (r : Replacement s p o op t) {o' : OpId} (h : s.Pending p o') :
    r.result.Pending p o' := by
  by_cases hne : o' = o
  · exact .inr (hne ▸ r.operands_nil)
  rcases h with ⟨ops, hv, hmem⟩ | ⟨d, hd, hoperands⟩
  · have hops : ops = r.before ++ o :: r.after :=
      Except.ok.inj (hv.listed.symm.trans r.site.valid.listed)
    exact .inl ⟨_, r.valid, r.mem_listing hne (hops ▸ hmem)⟩
  · exact .inr ⟨_, r.ops_of_ne hne hd, by rw [Operation.rename, hoperands, List.map_nil]⟩

theorem Pending.exists_isEligible (hs : s.Mutable p) (h : s.Pending p o) :
    ∃ b, s.isEligible o = .ok b := by
  rcases h with ⟨ops, hv, hmem⟩ | ⟨d, hd, -⟩
  · obtain ⟨d, hd, -⟩ := hv.entry hmem
    exact Store.exists_isEligible hs.allocated hd
  · exact Store.exists_isEligible hs.allocated hd

/-- A pending operation that is eligible is listed. -/
theorem Pending.listed (h : s.Pending p o) (he : s.isEligible o = .ok true) :
    ∃ ops, s.Valid p ops ∧ o ∈ ops := by
  refine h.resolve_right ?_
  rintro ⟨d, hd, hoperands⟩
  rw [isEligible_of_operands_nil hd hoperands] at he
  cases he

end Store

namespace Bench

open Store

variable {γ : Type} {c : Catalog} {p : Program} {s : Store}

/-! ## Candidates and picks -/

theorem filterM_eq {ε α : Type} {f : α → Except ε Bool} {keep : α → Bool} {l : List α}
    (h : ∀ a ∈ l, f a = .ok (keep a)) : l.filterM f = .ok (l.filter keep) := by
  have haux : ∀ (l acc : List α), (∀ a ∈ l, f a = .ok (keep a)) →
      l.filterAuxM f acc = .ok ((l.filter keep).reverse ++ acc) := by
    intro l
    induction l with
    | nil => exact fun acc _ => rfl
    | cons a l ih =>
      intro acc h
      rw [List.filterAuxM, h a List.mem_cons_self]
      refine (ih _ fun a' ha' => h a' (List.mem_cons_of_mem _ ha')).trans ?_
      cases hkeep : keep a <;> simp [hkeep]
  refine bind_eq_ok.2 ⟨_, haux l [] h, ?_⟩
  simp [pure, Except.pure]

/-- **The candidates of a valid program** are its eligible operations, in order; looking for them
never faults. -/
theorem candidates_eq {ops : List OpId} (ha : s.OperandsAllocated) (hv : s.Valid p ops) :
    candidates p s = .ok (s.eligibleOps ops) := by
  refine bind_eq_ok.2 ⟨ops, hv.listed, filterM_eq fun o ho => ?_⟩
  obtain ⟨d, hd, -⟩ := hv.entry ho
  obtain ⟨eligible, heligible⟩ := exists_isEligible ha hd
  rw [heligible]
  cases eligible <;> simp

theorem candidates_eq_nil_iff (h : s.Mutable p) : candidates p s = .ok [] ↔
    ∃ ops, p.ops s = .ok ops ∧ ∀ o ∈ ops, s.isEligible o = .ok false := by
  obtain ⟨ops, hv⟩ := h.valid
  have hops : ∀ ops', p.ops s = .ok ops' ↔ ops' = ops := by
    intro ops'
    rw [hv.listed]
    exact ⟨fun heq => (Except.ok.inj heq).symm, fun heq => heq ▸ rfl⟩
  have hempty : candidates p s = .ok [] ↔ s.eligibleOps ops = [] := by
    rw [candidates_eq h.allocated hv]
    exact ⟨Except.ok.inj, congrArg _⟩
  simp only [hops, exists_eq_left, hempty, eligibleOps, List.filter_eq_nil_iff, decide_eq_true_eq]
  refine forall_congr' fun o => imp_congr_right fun ho => ?_
  obtain ⟨eligible, heligible⟩ :=
    Pending.exists_isEligible h (.inl ⟨ops, hv, ho⟩)
  rw [heligible]
  cases eligible <;> simp

variable [RandomSource γ]

theorem drawMarks_spec {bound : Nat} (hpos : 0 < bound) (count : Nat) (marks : Marks) (source : γ) :
    ∃ drawn : List Nat, drawn.length = count ∧ (∀ i ∈ drawn, i < bound) ∧
      ∀ i, (drawMarks bound count marks source).1.contains i = true ↔
        marks.contains i = true ∨ i ∈ drawn := by
  induction count generalizing marks source with
  | zero => exact ⟨[], rfl, nofun, fun i => by simp [drawMarks]⟩
  | succ count ih =>
    obtain ⟨drawn, hlength, hlt, hmem⟩ := ih
      (marks.insert (RandomSource.below bound source).1 ()) (RandomSource.below bound source).2
    refine ⟨(RandomSource.below bound source).1 :: drawn, by rw [List.length_cons, hlength],
      List.forall_mem_cons.2 ⟨RandomSource.below_lt hpos source, hlt⟩, fun i => ?_⟩
    show (drawMarks bound count (marks.insert (RandomSource.below bound source).1 ())
      (RandomSource.below bound source).2).1.contains i = true ↔ _
    rw [hmem, Table.contains_insert, List.mem_cons]
    grind

/-- The picks are the candidates with marked places. -/
theorem exists_drawPicks_eq (maxPicks : Nat) (found : List OpId) (source : γ) :
    ∃ (marks : Marks) (source' : γ), (drawPicks maxPicks found source).1 =
        (found.zipIdx.filter fun entry => Table.contains marks entry.2).map Prod.fst ∧
      marks = (drawMarks found.length (RandomSource.upTo (max 1 maxPicks) source).1 Table.empty
        source').1 := by
  refine ⟨_, (RandomSource.upTo (max 1 maxPicks) source).2, ?_, rfl⟩
  rw [← List.filterMap_eq_map, List.filterMap_filter]
  rfl

/-- **Picks are candidates**, in their order. -/
theorem drawPicks_sublist (maxPicks : Nat) (found : List OpId) (source : γ) :
    (drawPicks maxPicks found source).1.Sublist found := by
  obtain ⟨marks, -, heq, -⟩ := exists_drawPicks_eq maxPicks found source
  rw [heq]
  have hsub := (List.filter_sublist (p := fun entry : OpId × Nat => Table.contains marks entry.2)
    (l := found.zipIdx)).map Prod.fst
  rwa [List.zipIdx_map_fst] at hsub

theorem upTo_bounds (limit : Nat) (hpos : 0 < limit) (source : γ) :
    1 ≤ (RandomSource.upTo limit source).1 ∧ (RandomSource.upTo limit source).1 ≤ limit :=
  ⟨Nat.succ_pos _, RandomSource.choose_lt hpos source⟩

/-- **At least one candidate is picked**, and at most as many as the limit says. -/
theorem drawPicks_length (maxPicks : Nat) {found : List OpId} (hfound : found ≠ []) (source : γ) :
    (drawPicks maxPicks found source).1 ≠ [] ∧
      (drawPicks maxPicks found source).1.length ≤ max 1 maxPicks := by
  obtain ⟨marks, source', heq, hmarks⟩ := exists_drawPicks_eq maxPicks found source
  have hcount := upTo_bounds (max 1 maxPicks) (Nat.le_max_left 1 _) source
  obtain ⟨drawn, hlength, hlt, hmem⟩ := drawMarks_spec (List.length_pos_iff.2 hfound)
    (RandomSource.upTo (max 1 maxPicks) source).1 Table.empty source'
  rw [← hmarks] at hmem
  rw [heq]
  constructor
  · -- the place that was drawn first is marked
    obtain ⟨i, hi⟩ := List.exists_mem_of_length_pos (l := drawn) (by omega)
    obtain ⟨o, ho⟩ : ∃ o, found[i]? = some o := ⟨_, List.getElem?_eq_getElem (hlt i hi)⟩
    refine List.ne_nil_of_mem (a := o) (List.mem_map.2 ⟨(o, i), ?_, rfl⟩)
    exact List.mem_filter.2 ⟨List.mem_zipIdx_iff_getElem?.2 ho, (hmem i).2 (.inr hi)⟩
  · -- the marked places are distinct and were all drawn
    have hnodup : ((found.zipIdx.filter fun entry => Table.contains marks entry.2).map
        Prod.snd).Nodup := by
      have hsub := (List.filter_sublist (p := fun entry : OpId × Nat => Table.contains marks entry.2)
        (l := found.zipIdx)).map Prod.snd
      rw [List.zipIdx_map_snd] at hsub
      exact hsub.nodup List.nodup_range'
    have hsubset : (found.zipIdx.filter fun entry => Table.contains marks entry.2).map Prod.snd ⊆
        drawn := by
      intro i hi
      obtain ⟨entry, hentry, rfl⟩ := List.mem_map.1 hi
      exact ((hmem _).1 (List.mem_filter.1 hentry).2).resolve_left (by simp [Table.contains_empty])
    have hle := (List.subperm_of_subset hnodup hsubset).length_le
    rw [List.length_map] at hle ⊢
    omega

/-! ## Rounds -/

/-- An operator whose operations are eligible and for which a catalog has no templates. -/
def Lacks (c : Catalog) (op : BinaryOp) : Prop :=
  op.isSupported = true ∧ c.templates op = []

theorem mutateAll_cons {b : Bench γ} {o : OpId} {eligible : Bool}
    (h : b.store.isEligible o = .ok eligible) (rest : List OpId) : mutateAll c (o :: rest) b =
      (if eligible then do
        let record ← mutate c o
        return record :: (← mutateAll c rest)
      else mutateAll c rest : Edit (Bench γ) MutationError _) b := by
  have hread : (Edit.read fun b => b.store.isEligible o : Edit (Bench γ) MutationError Bool) b =
      .done eligible b := Edit.read_done (lift_eq_ok.2 h)
  exact Edit.bind_done hread

/-- **Replacing pending operations in order** comes to its end, or stops at an operator without
templates. -/
theorem mutateAll_outcome : ∀ (picks : List OpId) (b : Bench γ), b.store.Mutable p →
    (∀ o ∈ picks, b.store.Pending p o) →
    ∃ b' : Bench γ, Rewrites c p b.store b'.store ∧
      ((∃ records, mutateAll c picks b = .done records b') ∨
        ∃ op, Lacks c op ∧ mutateAll c picks b = .failed (.missingTemplates op) b')
  | [], b, _, _ => ⟨b, .refl _, .inl ⟨[], rfl⟩⟩
  | o :: rest, b, hb, hpicks => by
    have hpending := hpicks o List.mem_cons_self
    have hrest := fun o' ho' => hpicks o' (List.mem_cons_of_mem _ ho')
    obtain ⟨eligible, heligible⟩ := hpending.exists_isEligible hb
    rw [mutateAll_cons heligible]
    cases eligible with
    | false => exact mutateAll_outcome rest b hb hrest
    | true =>
      obtain ⟨ops, hv, ho⟩ := hpending.listed heligible
      obtain ⟨op, he⟩ := isEligible_eq_true_iff.1 heligible
      have hsupported : op.isSupported = true := by
        obtain ⟨-, -, -, -, -, -, hsupported, -⟩ := eligibility_ok he
        exact hsupported
      rcases mutate_outcome (c := c) hb.consistent hb.allocated hv ho he with
        ⟨hempty, hfailed⟩ | ⟨t, ht, r, record, source, -, hdone, -⟩
      · exact ⟨b, .refl _, .inr ⟨op, ⟨hsupported, hempty⟩, Edit.bind_failed hfailed⟩⟩
      · obtain ⟨b', hrewrites, hend⟩ := mutateAll_outcome rest ⟨r.result, source⟩ r.mutable
          fun o' ho' => r.pending (hrest o' ho')
        refine ⟨b', .step ht r hrewrites, ?_⟩
        rcases hend with ⟨records, hall⟩ | ⟨op', hlacks, hall⟩
        · exact .inl ⟨record :: records, (Edit.bind_done hdone).trans (Edit.bind_done hall)⟩
        · exact .inr ⟨op', hlacks, (Edit.bind_done hdone).trans (Edit.bind_failed hall)⟩

/-- The ways in which a round on a valid program ends. -/
inductive RoundEnd (c : Catalog) (p : Program) (b : Bench γ) :
    Outcome (Bench γ) MutationError (Option MutationReport) → Prop
  /-- No operation is eligible. -/
  | idle (h : candidates p b.store = .ok []) : RoundEnd c p b (.done none b)
  | mutated {report : MutationReport} {b' : Bench γ} (h : candidates p b.store ≠ .ok [])
      (rewrites : Rewrites c p b.store b'.store) : RoundEnd c p b (.done (some report) b')
  /-- An operation was picked for whose operator there are no templates. -/
  | stopped {op : BinaryOp} {b' : Bench γ} (h : candidates p b.store ≠ .ok [])
      (lacks : Lacks c op) (rewrites : Rewrites c p b.store b'.store) :
      RoundEnd c p b (.failed (.missingTemplates op) b')

/-- A round with candidates mutates the operations that are drawn, and validates the program if it
is asked to. -/
theorem exists_mutateProgram_eq (c : Catalog) (maxPicks : Nat) {b : Bench γ} {found : List OpId}
    (hfound : candidates p b.store = .ok found) (hne : found.isEmpty = false) :
    ∃ picks source, (∀ o ∈ picks, o ∈ found) ∧
      ∀ validate, mutateProgram c ⟨maxPicks, validate⟩ p b =
        (do
          let records ← mutateAll c picks
          if validate then
            let violations ← Edit.read fun b => b.store.validate p
            if !violations.isEmpty then Edit.fail (.invalidProgram violations)
          return some ⟨"mba", found.length, records⟩ : Edit (Bench γ) MutationError _)
            ⟨b.store, source⟩ := by
  have hread : (Edit.read fun b => candidates p b.store : Edit (Bench γ) MutationError _) b =
      .done found b := Edit.read_done (lift_eq_ok.2 hfound)
  obtain ⟨picks, source, hdraw, hpicks⟩ : ∃ picks source,
      (drawing (drawPicks maxPicks found) : Edit (Bench γ) MutationError _) b =
        .done picks ⟨b.store, source⟩ ∧ ∀ o ∈ picks, o ∈ found :=
    ⟨_, _, rfl, (drawPicks_sublist maxPicks found b.source).subset⟩
  refine ⟨picks, source, hpicks, fun validate => ?_⟩
  refine (Edit.bind_done hread).trans ?_
  rw [hne]
  exact Edit.bind_done hdraw

/-- **A round ends in one of three ways**, whether it validates the program or not. -/
theorem mutateProgram_outcome (c : Catalog) (maxPicks : Nat) {b : Bench γ} (hb : b.store.Mutable p) :
    ∃ outcome, RoundEnd c p b outcome ∧
      ∀ validate, mutateProgram c ⟨maxPicks, validate⟩ p b = outcome := by
  obtain ⟨ops, hv⟩ := hb.valid
  obtain ⟨found, hfound, hmem⟩ : ∃ found, candidates p b.store = .ok found ∧ ∀ o ∈ found, o ∈ ops :=
    ⟨_, candidates_eq hb.allocated hv, fun o ho => (mem_eligibleOps.1 ho).1⟩
  cases hempty : found.isEmpty with
  | true =>
    obtain rfl := List.isEmpty_iff.1 hempty
    have hread : (Edit.read fun b => candidates p b.store : Edit (Bench γ) MutationError _) b =
        .done [] b := Edit.read_done (lift_eq_ok.2 hfound)
    exact ⟨_, .idle hfound, fun validate => Edit.bind_done hread⟩
  | false =>
    have hne : candidates p b.store ≠ .ok [] := by
      rw [hfound]
      rintro heq
      cases heq
      cases hempty
    obtain ⟨picks, source, hpicks, hround⟩ := exists_mutateProgram_eq c maxPicks hfound hempty
    obtain ⟨b', hrewrites, hend⟩ := mutateAll_outcome (c := c) picks ⟨b.store, source⟩ hb
      fun o ho => .inl ⟨ops, hv, hmem o (hpicks o ho)⟩
    rcases hend with ⟨records, hall⟩ | ⟨op, hlacks, hall⟩
    · refine ⟨.done (some ⟨"mba", found.length, records⟩) b', .mutated hne hrewrites, ?_⟩
      intro validate
      rw [hround, Edit.bind_done hall]
      cases validate with
      | false => rfl
      | true =>
        have hvalidate : (Edit.read fun b => b.store.validate p :
            Edit (Bench γ) MutationError _) b' = .done [] b' :=
          Edit.read_done (lift_eq_ok.2 (hrewrites.mutable hb).validate)
        exact Edit.bind_done hvalidate
    · exact ⟨_, .stopped hne hlacks hrewrites, fun validate => by
        rw [hround, Edit.bind_failed hall]⟩

/-- **A round on a valid program** of a reachable store in which all operands are values never
faults. It does nothing exactly when no operation is eligible, stops only at an operator without
templates, and leaves the program valid in any case, so that it does not matter whether it
validates. -/
theorem mutateProgram_spec (c : Catalog) (config : MutationConfig) {p : Program} {b : Bench γ}
    (hreach : b.store.Reachable) (ha : b.store.OperandsAllocated)
    (hv : b.store.validate p = .ok []) :
    ((∃ b', mutateProgram c config p b = .done none b') ↔
        ∃ ops, p.ops b.store = .ok ops ∧ ∀ o ∈ ops, b.store.isEligible o = .ok false) ∧
      (match mutateProgram c config p b with
        | .done none b' => b' = b ∧ b'.store.validate p = .ok []
        | .done (some _) b' => b'.store.validate p = .ok []
        | .failed e b' =>
          b'.store.validate p = .ok [] ∧ ∃ op, Lacks c op ∧ e = .missingTemplates op
        | .fault _ => False) ∧
      ∀ validate, mutateProgram c { config with validate } p b = mutateProgram c config p b := by
  have hb : b.store.Mutable p := .of_validate hreach.consistent ha hv
  obtain ⟨outcome, hend, houtcome⟩ := mutateProgram_outcome c config.maxPicks hb
  have hconfig : mutateProgram c config p b = outcome := houtcome config.validate
  rw [hconfig]
  refine ⟨?_, ?_, houtcome⟩
  · have hidle : (∃ b', outcome = .done none b') ↔ candidates p b.store = .ok [] := by
      cases hend with
      | idle h => exact ⟨fun _ => h, fun _ => ⟨b, rfl⟩⟩
      | mutated h _ => exact ⟨fun ⟨_, heq⟩ => (nomatch heq), fun heq => absurd heq h⟩
      | stopped h _ _ => exact ⟨fun ⟨_, heq⟩ => (nomatch heq), fun heq => absurd heq h⟩
    rw [hidle]
    exact candidates_eq_nil_iff hb
  · cases hend with
    | idle _ => exact ⟨rfl, hv⟩
    | mutated _ rewrites => exact (rewrites.mutable hb).validate
    | stopped _ lacks rewrites => exact ⟨(rewrites.mutable hb).validate, _, lacks, rfl⟩

/-- A store that holds the program of the sum of two inputs. -/
def sumStore : Store where
  ops := #[⟨.binary .add, [⟨0⟩, ⟨1⟩], some (.int .w32), some ⟨2⟩, some ⟨0⟩⟩,
    ⟨.ret, [⟨2⟩], none, none, some ⟨0⟩⟩]
  values := #[⟨.argument ⟨0⟩ 0, .int .w32⟩, ⟨.argument ⟨0⟩ 1, .int .w32⟩, ⟨.result ⟨0⟩, .int .w32⟩]
  blocks := #[⟨[.int .w32, .int .w32], [⟨0⟩, ⟨1⟩], [⟨0⟩, ⟨1⟩]⟩]
  chains := ⟨#[some [⟨⟨0⟩, 0⟩], some [⟨⟨0⟩, 1⟩], some [⟨⟨1⟩, 0⟩]]⟩

theorem reachable_sumStore : sumStore.Reachable :=
  Reachable.foldlM .empty
    (show [.createBlock [.int .w32, .int .w32] [],
        .createOp ⟨.binary .add, [⟨0⟩, ⟨1⟩], some (.int .w32), none⟩, .pushOp ⟨0⟩ ⟨0⟩,
        .createOp ⟨.ret, [⟨2⟩], none, none⟩, .pushOp ⟨0⟩ ⟨1⟩].foldlM Change.apply Store.empty =
      .ok sumStore from rfl)

theorem mutateProgram_spec_sum :
    let p : Program := ⟨"sum", ⟨0⟩⟩
    let b : Bench Script := ⟨sumStore, Script.ofWords [5]⟩
    ∃ report b', mutateProgram Catalog.standard {} p b = .done (some report) b' ∧
      b'.store.validate p = .ok [] := by
  intro p b
  obtain ⟨-, hend, -⟩ := mutateProgram_spec (p := p) (b := b) Catalog.standard {}
    reachable_sumStore (by decide) (by decide +kernel)
  have hdone : ((mutateProgram Catalog.standard {} p b).done?.bind (·.1)).isSome = true := by
    decide +kernel
  obtain ⟨report, hreport⟩ := Option.isSome_iff_exists.1 hdone
  obtain ⟨⟨report?, b'⟩, hfound, rfl⟩ := Option.bind_eq_some_iff.1 hreport
  have heq := Outcome.done?_eq_some_iff.1 hfound
  rw [heq] at hend
  exact ⟨report, b', heq, hend⟩

end Bench

end Mba
