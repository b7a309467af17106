import Mba.Proofs.Mutation.Accounting
import Mba.Proofs.Mutation.Order
import Mba.Proofs.Task

/-!
# The reports of a task

A task mutates a program in rounds. Each of its reports accounts for one round. With the standard
catalog the rounds never run out of operations to replace, because each template has an operation
among its own that is eligible in turn. So there is a report for each round that was asked for,
unless no operation was eligible to begin with.

Results:
* `Replacement.candidates_ne_nil`: a template leaves an operation to replace.
* `rounds_account`: the rounds of a program account for what they have done.
* `length_of_rounds`: all rounds are done, or none.
* `reports_account`: what the reports of a round and of a task tell.
-/

namespace Mba

open Store Bench

/-! ## Operations to replace next -/

/-- Whether an operation that is emitted for the step has a supported operator. -/
def Template.Step.isSupported : Template.Step → Bool
  | .unary _ _ => false
  | .binary op _ _ => op.isSupported

/-- All templates have a step that can be replaced in turn. -/
def Catalog.Renewing (c : Catalog) : Prop :=
  ∀ op, ∀ t ∈ c.templates op, ∃ step ∈ t.steps, step.isSupported = true

theorem renewing_standard : Catalog.standard.Renewing := by
  intro op
  cases op <;> decide

namespace Template

theorem Operand.prefix_code (a : Operand) (w : Width) (temps : List Source)
    (code : List Instruction) : code <+: (a.code w temps code).2 := by
  cases a with
  | x | y | tmp _ => exact List.prefix_rfl
  | lit _ => exact List.prefix_append _ _

theorem Step.prefix_code (step : Step) (w : Width) (temps : List Source) (code : List Instruction) :
    code <+: step.code w temps code := by
  cases step with
  | unary op a => exact (a.prefix_code w temps code).trans (List.prefix_append _ _)
  | binary op a b =>
    exact ((a.prefix_code w temps code).trans (b.prefix_code w temps _)).trans
      (List.prefix_append _ _)

theorem prefix_codeSteps (w : Width) (steps : List Step) (temps : List Source)
    (code : List Instruction) : code <+: codeSteps w steps temps code := by
  induction steps generalizing temps code with
  | nil => exact List.prefix_rfl
  | cons step rest ih => exact (step.prefix_code w temps code).trans (ih _ _)

/-- **Each binary step is emitted.** -/
theorem exists_mem_codeSteps {op : BinaryOp} {lhs rhs : Operand} (w : Width) {steps : List Step}
    (hstep : .binary op lhs rhs ∈ steps) (temps : List Source) (code : List Instruction) :
    ∃ i ∈ codeSteps w steps temps code, i.opcode = .binary op := by
  induction steps generalizing temps code with
  | nil => cases hstep
  | cons step rest ih =>
    rcases List.mem_cons.1 hstep with rfl | hrest
    · obtain ⟨i, hi, hopcode⟩ : ∃ i ∈ (Step.binary op lhs rhs).code w temps code,
          i.opcode = .binary op := ⟨_, List.mem_append_right _ List.mem_cons_self, rfl⟩
      exact ⟨i, (prefix_codeSteps w rest _ _).subset hi, hopcode⟩
    · exact ih hrest _ _

end Template

namespace Store

variable {s s' : Store} {p : Program} {c : Catalog} {o : OpId} {op : BinaryOp} {t : Template}

/-- **A template leaves an operation to replace.** -/
theorem Replacement.candidates_ne_nil (r : Replacement s p o op t)
    (hstep : ∃ step ∈ t.steps, step.isSupported = true) : candidates p r.result ≠ .ok [] := by
  obtain ⟨⟨⟩ | ⟨op', lhs, rhs⟩, hmem, hsupported⟩ := hstep
  case unary => cases hsupported
  case binary =>
  obtain ⟨i, hi, hopcode⟩ := Template.exists_mem_codeSteps r.width hmem [] []
  obtain ⟨k, hk⟩ := List.getElem?_of_mem hi
  have hlisted : (⟨s.ops.size + k⟩ : OpId) ∈ r.listing := by
    have hlt : k < r.fresh.length := r.length_fresh ▸ (List.getElem?_eq_some_iff.1 hk).1
    have hfresh := List.mem_of_getElem? (r.getElem?_fresh hlt)
    exact List.mem_append_left _ (List.mem_append_right _ hfresh)
  have heligible : r.result.eligibility ⟨s.ops.size + k⟩ = .ok op' :=
    r.valid.eligibility_eq_ok hlisted (r.ops_fresh hk) hopcode hsupported rfl
  rw [candidates_eq r.allocated r.valid]
  intro heq
  have hmem := mem_eligibleOps.2 ⟨hlisted, op', heligible⟩
  rw [Except.ok.inj heq] at hmem
  cases hmem

theorem Rewrites.candidates_ne_nil (hc : c.Renewing) (h : Rewrites c p s s')
    (hne : candidates p s ≠ .ok []) : candidates p s' ≠ .ok [] := by
  induction h with
  | refl s => exact hne
  | step ht r _ ih => exact ih (r.candidates_ne_nil (hc _ _ ht))

end Store

/-- A program that was read can be mutated, and lists no operation twice. -/
theorem Program.mutable_of_load {text : String} {p : Program} {s : Store}
    (h : Program.load text empty = .done p s) :
    s.Mutable p ∧ ∃ ops, p.ops s = .ok ops ∧ ops.Nodup := by
  obtain ⟨hread, hvalidate⟩ := Program.load_eq_done.1 h
  obtain ⟨name, tys, done, rfl, happended⟩ := Program.read_appended consistent_empty hread
  have hbuilt := happended.built (consistent_empty.built_create name tys)
  exact ⟨.of_validate hbuilt.consistent hbuilt.allocated hvalidate, done, hbuilt.listed,
    happended.nodup .nil nofun⟩

namespace Task

/-! ## Rounds -/

section Rounds

variable {γ : Type} [RandomSource γ] {c : Catalog} {config : MutationConfig} {p : Program}
  {b b' : Bench γ} {reports : List MutationReport} {ops : List OpId}

/-- Rounds one after another, each of which accounts for what it has done. -/
inductive RoundAccounts (c : Catalog) (config : MutationConfig) (p : Program) :
    Bench γ → List MutationReport → Bench γ → Prop
  | nil (b : Bench γ) : RoundAccounts c config p b [] b
  | cons {b b₁ b' : Bench γ} {report : MutationReport} {reports : List MutationReport}
      {ops picks : List OpId} {run : OpId → List OpId}
      (account : RoundAccount c config p report b b₁ ops picks run)
      (more : RoundAccounts c config p b₁ reports b') :
      RoundAccounts c config p b (report :: reports) b'

theorem roundEnd_of_mutateProgram {outcome : Outcome (Bench γ) MutationError (Option MutationReport)}
    (hb : b.store.Mutable p) (h : mutateProgram c config p b = outcome) : RoundEnd c p b outcome := by
  obtain ⟨outcome', hend, houtcome⟩ := mutateProgram_outcome c config.maxPicks hb
  exact h ▸ houtcome config.validate ▸ hend

/-- Rounds that come to their end are none, or a round that has found nothing to replace, or a round
with a report and more of them. -/
theorem rounds_succ_eq_done {count : Nat} (hb : b.store.Mutable p)
    (h : rounds c config p (count + 1) b = .done reports b') :
    (candidates p b.store = .ok [] ∧ reports = [] ∧ b' = b) ∨
      ∃ report b₁ more, candidates p b.store ≠ .ok [] ∧ Rewrites c p b.store b₁.store ∧
        mutateProgram c config p b = .done (some report) b₁ ∧
        rounds c config p count b₁ = .done more b' ∧ reports = report :: more := by
  obtain ⟨report?, b₁, hround, hrest⟩ := Edit.bind_eq_done.1 h
  cases roundEnd_of_mutateProgram hb hround with
  | idle hidle =>
    cases hrest
    exact .inl ⟨hidle, rfl, rfl⟩
  | @mutated report _ hne rewrites =>
    obtain ⟨more, b₂, hmore, hend⟩ := Edit.bind_eq_done.1 hrest
    cases hend
    exact .inr ⟨report, b₁, more, hne, rewrites, hround, hmore, rfl⟩

/-- **The rounds of a program account for what they have done.** -/
theorem rounds_account {count : Nat} (hb : b.store.Mutable p) (hops : p.ops b.store = .ok ops)
    (hnodup : ops.Nodup) (h : rounds c config p count b = .done reports b') :
    RoundAccounts c config p b reports b' := by
  induction count generalizing b ops reports with
  | zero =>
    cases h
    exact .nil _
  | succ count ih =>
    rcases rounds_succ_eq_done hb h with
      ⟨-, rfl, rfl⟩ | ⟨report, b₁, more, -, hrewrites, hround, hmore, rfl⟩
    · exact .nil _
    · obtain ⟨picks, run, haccount⟩ := mutateProgram_account hb hops hnodup hround
      have hsubstituted := haccount.substituted
      exact .cons haccount (ih (hrewrites.mutable hb) hsubstituted.listed hsubstituted.nodup hmore)

/-- **All rounds are done, or none**, where each template leaves an operation to replace. -/
theorem length_of_rounds (hc : c.Renewing) {count : Nat} (hb : b.store.Mutable p)
    (h : rounds c config p count b = .done reports b') :
    (candidates p b.store = .ok [] → reports.length = 0) ∧
      (candidates p b.store ≠ .ok [] → reports.length = count) := by
  induction count generalizing b reports with
  | zero =>
    cases h
    exact ⟨fun _ => rfl, fun _ => rfl⟩
  | succ count ih =>
    rcases rounds_succ_eq_done hb h with
      ⟨hidle, rfl, rfl⟩ | ⟨report, b₁, more, hne, hrewrites, -, hmore, rfl⟩
    · exact ⟨fun _ => rfl, fun hne => absurd hidle hne⟩
    · refine ⟨fun hidle => absurd hidle hne, fun _ => ?_⟩
      rw [List.length_cons, (ih (hrewrites.mutable hb) hmore).2 (hrewrites.candidates_ne_nil hc hne)]

end Rounds

/-! ## Texts -/

/-- The steps of a task that comes to its end. -/
theorem mutate_eq_ok {γ : Type} [RandomSource γ] {ofSeed : UInt64 → γ} {text : String}
    {options : MutateOptions} {result : MutateResult}
    (h : mutate ofSeed text options = .ok result) :
    ∃ p s source b', Program.load text empty = .done p s ∧
      rounds Catalog.standard options.config p options.rounds (⟨s, source⟩ : Bench γ) =
        .done result.reports b' ∧
      p.print b'.store = .ok result.program := by
  obtain ⟨b', hdone⟩ := Outcome.answer_eq_ok_iff.1 h
  obtain ⟨p, b₁, hload, hmutate⟩ := Edit.bind_eq_done.1 hdone
  obtain ⟨s, hread, rfl⟩ := onStore_eq_done.1 hload
  obtain ⟨found, b₂, hrecord, hrest⟩ := Edit.bind_eq_done.1 hmutate
  obtain ⟨⟨found', source⟩, -, hbench⟩ := bind_eq_ok.1 (Edit.step_eq_done.1 hrecord)
  cases hbench
  obtain ⟨reports, b₃, hrounds, hrest⟩ := Edit.bind_eq_done.1 hrest
  obtain ⟨mismatch?, b₄, hcheck, hrest⟩ := Edit.bind_eq_done.1 hrest
  obtain ⟨-, rfl⟩ := Edit.read_eq_done.1 hcheck
  cases mismatch? with
  | some m => cases hrest
  | none =>
    obtain ⟨program, b₅, hprint, hend⟩ := Edit.bind_eq_done.1 hrest
    obtain ⟨hprint, rfl⟩ := Edit.read_eq_done.1 hprint
    cases hend
    exact ⟨p, s, source, _, hread, Edit.mapError_eq_done.1 hrounds, lift_eq_ok.1 hprint⟩

/-- **What reports tell.** A round that ends with a report, on a valid program of a store in which
all operands are values and blocks were created empty, accounts for what it has done: it has
replaced some of the eligible operations by runs of new ones.

So does each round of a task. The accounts lead from the program that was read to the one that was
printed. There is one for each round that was asked for, or none if no operation of the program that
was read is eligible. -/
theorem reports_account :
    (∀ {γ : Type} [RandomSource γ] (c : Catalog) (config : MutationConfig) (p : Program)
        (b b' : Bench γ) (report : MutationReport), b.store.ReachableEmpty →
      b.store.OperandsAllocated → b.store.validate p = .ok [] →
      mutateProgram c config p b = .done (some report) b' →
      ∃ ops picks run, RoundAccount c config p report b b' ops picks run) ∧
    ∀ {γ : Type} [RandomSource γ] (ofSeed : UInt64 → γ) text options result,
      mutate ofSeed text options = .ok result →
      ∃ p s source ops, ∃ b' : Bench γ, Program.load text empty = .done p s ∧
        p.ops s = .ok ops ∧
        RoundAccounts Catalog.standard options.config p ⟨s, source⟩ result.reports b' ∧
        p.print b'.store = .ok result.program ∧
        result.reports.length = if s.eligibleOps ops = [] then 0 else options.rounds := by
  constructor
  · intro γ _ c config p b b' report hreach ha hv hround
    have hb : b.store.Mutable p := .of_validate hreach.reachable.consistent ha hv
    obtain ⟨ops, hvalid⟩ := hb.valid
    obtain ⟨block, hblock, hlisted⟩ := ops_eq_ok_iff.1 hvalid.listed
    have hnodup : ops.Nodup := hlisted ▸ hreach.arranged.nodup p.entry block hblock
    exact ⟨ops, mutateProgram_account hb hvalid.listed hnodup hround⟩
  · intro γ _ ofSeed text options result hmutate
    obtain ⟨p, s, source, b', hload, hrounds, hprint⟩ := mutate_eq_ok hmutate
    obtain ⟨hs, ops, hops, hnodup⟩ := Program.mutable_of_load hload
    have hb : (Bench.mk s source).store.Mutable p := hs
    refine ⟨p, s, source, ops, b', hload, hops, rounds_account hb hops hnodup hrounds, hprint, ?_⟩
    obtain ⟨ops', hv⟩ := hs.valid
    obtain rfl : ops = ops' := Except.ok.inj (hops.symm.trans hv.listed)
    obtain ⟨hnone, hall⟩ := length_of_rounds renewing_standard hb hrounds
    rw [candidates_eq hs.allocated hv] at hnone hall
    split
    next hempty => exact hnone (congrArg _ hempty)
    next hne => exact hall fun heq => hne (Except.ok.inj heq)

/-- The text of a program that adds its inputs. -/
def sumText : String :=
  "program @sum(%a: i8, %b: i8) \x7b
  %s = add %a, %b
  return %s
\x7d
"

/-- A round that replaces both operations of a program, and a task of two rounds. -/
theorem reports_account_chain :
    let p : Program := ⟨"chain", ⟨0⟩⟩
    let b : Bench Script := ⟨chainStore, Script.ofWords [0x3fffffff, 0, 0xffffffff]⟩
    let options : MutateOptions := ⟨0, 2, 0, ⟨1, true⟩⟩
    (∃ report b' ops picks run, mutateProgram Catalog.standard {} p b = .done (some report) b' ∧
      RoundAccount Catalog.standard {} p report b b' ops picks run ∧ picks.length = 2) ∧
    ∃ result p s source, ∃ b' : Bench ChaCha, mutate ChaCha.ofSeed sumText options = .ok result ∧
      RoundAccounts Catalog.standard options.config p ⟨s, source⟩ result.reports b' ∧
      result.reports.length = 2 := by
  intro p b options
  constructor
  · have hround : ((mutateProgram Catalog.standard {} p b).done?.bind (·.1)).map
        (·.records.length) = some 2 := by decide +kernel
    obtain ⟨report, hreport, hrecords⟩ := Option.map_eq_some_iff.1 hround
    obtain ⟨⟨report?, b'⟩, hfound, rfl⟩ := Option.bind_eq_some_iff.1 hreport
    have hdone := Outcome.done?_eq_some_iff.1 hfound
    obtain ⟨ops, picks, run, haccount⟩ := reports_account.1 Catalog.standard {} p b b' report
      reachableEmpty_chainStore (by decide) (by decide +kernel) hdone
    exact ⟨report, b', ops, picks, run, hdone, haccount, haccount.length.trans hrecords⟩
  · have hmutate : (mutate ChaCha.ofSeed sumText options).toOption.isSome = true := by decide +kernel
    obtain ⟨result, hresult⟩ : ∃ result, mutate ChaCha.ofSeed sumText options = .ok result := by
      revert hmutate
      cases mutate ChaCha.ofSeed sumText options with
      | error e => exact nofun
      | ok result => exact fun _ => ⟨result, rfl⟩
    obtain ⟨p', s, source, ops, b', hload, hops, haccounts, -, hlength⟩ :=
      reports_account.2 ChaCha.ofSeed sumText options result hresult
    have heligible : (Program.load sumText empty).done?.map (fun (p, s) =>
        (p.ops s).toOption.map s.eligibleOps) = some (some [⟨0⟩]) := by decide +kernel
    rw [hload] at heligible
    have hsome : s.eligibleOps ops = [⟨0⟩] := by
      simpa [Outcome.done?, hops, Except.toOption] using heligible
    rw [hsome, if_neg (List.cons_ne_nil _ _)] at hlength
    exact ⟨result, p', s, source, b', hresult, haccounts, hlength⟩

end Task

end Mba
