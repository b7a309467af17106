import Mba.Proofs.Task

/-!
# What reading accepts

Reading a text never asks whether the program it builds is well-formed. It need not: names stand for
values of earlier lines, and builders check the types, so the only thing that can be wrong with a
program that was read is where its returns are. That holds in every store, whatever other programs
and leftovers of texts that could not be read it holds.

Results:
* `validate_of_flow`: of a program whose operations flow and whose values are its own, validation
  reports the returns out of place, and nothing else.
* `Program.read_closed`: the values of a program that was read are its own.
* `Program.read_spec`: what validating, loading and running a text that is read can give.
-/

namespace Mba

namespace Store

variable {s : Store} {p : Program}

/-! ## Returns out of place -/

/-- What is wrong with the returns of a list of operations: those before the last one are misplaced,
and the last one is missing if it is no return. -/
def returnViolations (s : Store) (ops : List OpId) : List Violation :=
  (ops.dropLast.filter fun o => s.opcode? o = some .ret).map .misplacedReturn ++
    if ops.getLast?.bind s.opcode? = some .ret then [] else [.missingReturn]

/-- The last operation is a return, and the only one. -/
def EndsInOnlyReturn (s : Store) (ops : List OpId) : Prop :=
  ∃ body last, ops = body ++ [last] ∧ s.opcode? last = some .ret ∧
    ∀ o ∈ body, s.opcode? o ≠ some .ret

theorem returnViolations_eq_nil_iff {ops : List OpId} :
    s.returnViolations ops = [] ↔ s.EndsInOnlyReturn ops := by
  rw [returnViolations, List.append_eq_nil_iff, List.map_eq_nil_iff, List.filter_eq_nil_iff]
  simp only [decide_eq_true_eq]
  constructor
  · rintro ⟨hbody, hlast⟩
    obtain ⟨last, hlast', hret⟩ : ∃ last, ops.getLast? = some last ∧
        s.opcode? last = some .ret := by
      by_cases h : ops.getLast?.bind s.opcode? = some .ret
      · exact Option.bind_eq_some_iff.1 h
      · simp [h] at hlast
    obtain ⟨body, rfl⟩ := List.getLast?_eq_some_iff.1 hlast'
    rw [List.dropLast_concat] at hbody
    exact ⟨body, last, rfl, hret, hbody⟩
  · rintro ⟨body, last, rfl, hret, hbody⟩
    rw [List.dropLast_concat, List.getLast?_concat]
    exact ⟨hbody, if_pos hret⟩

/-- An operation that fits has no violations, unless it is a return before the end. -/
theorem opViolations_of_fits {defined : Marks} {done : List OpId} (h : s.Marked p defined done)
    {o : OpId} {d : Operation} (hd : s.ops[o.index]? = some d) (hfits : s.Fits p done d)
    (isLast : Bool) : s.opViolations p defined o isLast =
      .ok (if d.opcode = .ret && !isLast then [.misplacedReturn o] else []) := by
  obtain ⟨bs, hbs, hnone⟩ : ∃ bs, (d.operands.zipIdx.mapM fun slot =>
      s.operandViolation? defined ⟨o, slot.2⟩ slot.1) = .ok bs ∧ bs.filterMap id = [] :=
    mapM_eq_nones.2 fun slot hslot => operandViolation?_eq_none_iff.2
      ((h slot.1).2 (hfits.operands _ (List.fst_mem_of_mem_zipIdx hslot)))
  refine bind_eq_ok.2 ⟨d, op_eq_ok_iff.2 hd, ?_⟩
  refine bind_eq_ok.2 ⟨bs, hbs, ?_⟩
  rw [if_pos hfits.parent, hnone, hfits.typed]
  rfl

/-- **Operations that flow have no violations but the returns before the end.** -/
theorem flowViolations_of_flow {defined : Marks} {done ops : List OpId}
    (h : s.Marked p defined done) (hflow : s.Flow p done ops) : s.flowViolations p ops defined =
      .ok ((ops.dropLast.filter fun o => s.opcode? o = some .ret).map .misplacedReturn) := by
  induction ops generalizing done defined with
  | nil => rfl
  | cons o rest ih =>
    obtain ⟨⟨d, hd, hfits⟩, hrest⟩ := hflow
    have hopcode : s.opcode? o = some d.opcode := by rw [opcode?, hd, Option.map_some]
    refine bind_eq_ok.2 ⟨_, opViolations_of_fits h hd hfits _, ?_⟩
    refine bind_eq_ok.2 ⟨_, ih (h.after o) hrest, ?_⟩
    cases rest with
    | nil => simp [pure, Except.pure]
    | cons o' rest' =>
      rw [List.dropLast_cons_cons, List.filter_cons, hopcode]
      by_cases hret : d.opcode = .ret <;> simp [hret, pure, Except.pure]

/-- **Of a program whose operations flow and whose values are its own, validation reports the
returns out of place**, and nothing else. -/
theorem validate_of_flow (hs : s.Consistent) {ops : List OpId} (hlisted : p.ops s = .ok ops)
    (hflow : s.Flow p [] ops)
    (hclosed : ∀ v use, s.Defines p ops v → s.slot? use = some v → use.user ∈ ops) :
    s.validate p = .ok (s.returnViolations ops) := by
  obtain ⟨last?, hlast?, hnone⟩ := exists_terminator? hlisted fun o ho => by
    obtain ⟨d, hd, -⟩ := hflow.fits ho
    exact ⟨d, hd⟩
  refine bind_eq_ok.2 ⟨ops, hlisted, ?_⟩
  refine bind_eq_ok.2 ⟨_, flowViolations_of_flow (s.marked_inputs p) hflow, ?_⟩
  refine bind_eq_ok.2 ⟨last?, hlast?, ?_⟩
  rw [(chainDefects_eq_nil_iff hs hflow).2 hclosed, List.mergeSort_nil, hnone, returnViolations]
  by_cases hret : ops.getLast?.bind s.opcode? = some .ret <;> simp [hret, pure, Except.pure]

end Store

open Store

/-! ## Texts -/

variable {s₀ s : Store} {p : Program} {text : String}

/-- **The operations of a program that was read flow, and its values are its own.** -/
theorem Program.read_closed (hs₀ : s₀.Consistent) (ha : s₀.OperandsAllocated)
    (h : Program.read text s₀ = .done p s) :
    ∃ ops, s.Built p s₀.ops.size ops ∧
      ∀ v use, s.Defines p ops v → s.slot? use = some v → use.user ∈ ops := by
  obtain ⟨name, tys, ops, rfl, happended⟩ := Program.read_appended hs₀ h
  have hcreated := hs₀.built_create name tys
  have hbuilt := happended.built hcreated
  have hapart := happended.apart hs₀.owned hcreated (s₀.apart_create name tys)
  exact ⟨ops, hbuilt, hapart.closed hs₀.owned ha hbuilt⟩

/-- **A text that is read gives a program that is well-formed up to its returns.** In a reachable
store in which all operands are values, validation reports each return before the last operation,
and a missing one if the last operation is none, and nothing else. So loading accepts the text
exactly if it is read and the last operation is its only return. And whether it is loaded or not,
running the program on arguments of its input types gives outputs, divides by zero or comes to an
end without a return. -/
theorem Program.read_spec (hs₀ : s₀.Reachable) (ha : s₀.OperandsAllocated) (text : String)
    (p : Program) (s : Store) :
    (Program.read text s₀ = .done p s → ∃ ops, p.ops s = .ok ops ∧
      s.validate p = .ok (s.returnViolations ops) ∧
      ∀ args, p.inputTys s = .ok (args.map Scalar.ty) → s.RunEnd ops (s.run p args)) ∧
    (Program.load text s₀ = .done p s ↔
      Program.read text s₀ = .done p s ∧ ∃ ops, p.ops s = .ok ops ∧ s.EndsInOnlyReturn ops) := by
  have hread : Program.read text s₀ = .done p s → ∃ ops, s.Built p s₀.ops.size ops ∧
      s.validate p = .ok (s.returnViolations ops) := by
    intro h
    obtain ⟨ops, hbuilt, hclosed⟩ := Program.read_closed hs₀.consistent ha h
    exact ⟨ops, hbuilt, validate_of_flow hbuilt.consistent hbuilt.listed hbuilt.flow hclosed⟩
  constructor
  · intro h
    obtain ⟨ops, hbuilt, hvalidate⟩ := hread h
    refine ⟨ops, hbuilt.listed, hvalidate, fun args hargs => ?_⟩
    refine hbuilt.flow.runEnd hbuilt.consistent.owned hbuilt.listed ?_
    exact Except.ok.inj (hargs.symm.trans (inputTys_of_listed hbuilt.listed))
  · rw [Program.load_eq_done]
    refine and_congr_right fun h => ?_
    obtain ⟨ops, hbuilt, hvalidate⟩ := hread h
    rw [hvalidate, Except.ok.injEq, returnViolations_eq_nil_iff]
    constructor
    · exact fun hends => ⟨ops, hbuilt.listed, hends⟩
    · rintro ⟨ops', hops', hends⟩
      rw [hbuilt.listed] at hops'
      cases hops'
      exact hends

/-- The text of a program that returns before it divides. -/
def earlyText : String :=
  "program @early(%a: i8) \x7b
  return %a
  %q = div %a, %a
\x7d
"

theorem Program.read_spec_early :
    ∃ p s ops, Program.read earlyText quotientStore = .done p s ∧ p.ops s = .ok ops ∧
      s.validate p = .ok [.misplacedReturn ⟨2⟩, .missingReturn] ∧
      (∀ p' s', Program.load earlyText quotientStore ≠ .done p' s') ∧
      s.RunEnd ops (s.run p [.int .w8 0]) := by
  have hfound : ((Program.read earlyText quotientStore).done?.any fun found =>
      found.1.ops found.2 = .ok [⟨2⟩, ⟨3⟩] && found.1.inputTys found.2 = .ok [.int .w8] &&
        found.2.returnViolations [⟨2⟩, ⟨3⟩] = [.misplacedReturn ⟨2⟩, .missingReturn]) = true := by
    decide +kernel
  obtain ⟨⟨p, s⟩, hdone, hfound⟩ := (Option.any_eq_true _ _).1 hfound
  have hread := Outcome.done?_eq_some_iff.1 hdone
  simp only [Bool.and_eq_true, decide_eq_true_eq] at hfound
  obtain ⟨⟨hops, htys⟩, hreturns⟩ := hfound
  have hspec := Program.read_spec reachable_quotientStore (by decide) earlyText
  obtain ⟨ops, hops', hvalidate, hrun⟩ := (hspec p s).1 hread
  obtain rfl : ops = [⟨2⟩, ⟨3⟩] := Except.ok.inj (hops'.symm.trans hops)
  refine ⟨p, s, _, hread, hops, hvalidate.trans (congrArg _ hreturns), fun p' s' hload => ?_,
    hrun _ htys⟩
  obtain ⟨hread', ops', hops', hends⟩ := (hspec p' s').2.1 hload
  rw [hread] at hread'
  cases hread'
  obtain rfl : ops' = [⟨2⟩, ⟨3⟩] := Except.ok.inj (hops'.symm.trans hops)
  rw [returnViolations_eq_nil_iff.2 hends] at hreturns
  cases hreturns

end Mba
