import Mathlib.Data.List.Basic
import Mba.Proofs.Program.Execution

/-!
# Validation is sound for runs

A program whose operations flow, on arguments of its input types, runs to its first `ret`, whose
operands all have scalars of their types, or stops at a division or remainder of integers by zero.
No operand is undefined, no scalar is of an unsupported type, and no entry is missing. In a valid
program the first `ret` is the last operation.

Results:
* `Owned.bindArguments_inputs`: arguments of the right types are bound.
* `mapM_get_of_typed`: values that are known give scalars of their types.
* `Flow.runEnd`: how a run of a program ends whose operations flow.
* `Valid.run_outcome`: how a run of a valid program ends.
* `Reachable.run_of_validate`: so it does where validation finds no violation.
-/

namespace Mba.Store

variable {s : Store} {p : Program}

/-- Arguments are bound to inputs of their types. -/
theorem bindArguments_ok {pairs : List (ValueId × Scalar)}
    (h : ∀ pair ∈ pairs, s.valueTy pair.1 = .ok pair.2.ty) (index : Nat) (env : Env) :
    ∃ env', s.bindArguments pairs index env = .ok env' := by
  induction pairs generalizing index env with
  | nil => exact ⟨env, rfl⟩
  | cons pair rest ih =>
    obtain ⟨input, arg⟩ := pair
    obtain ⟨hinput, hrest⟩ := List.forall_mem_cons.1 h
    obtain ⟨env', henv'⟩ := ih hrest (index + 1) (env.set input arg)
    refine ⟨env', bind_eq_ok.2 ⟨arg.ty, lift_eq_ok.2 hinput, ?_⟩⟩
    rw [if_neg (Decidable.not_not.2 rfl), henv']

/-- **Arguments of the right types are bound** to the inputs. -/
theorem Owned.bindArguments_inputs (hs : s.Owned) {args : List Scalar}
    (hargs : args.map Scalar.ty = s.argTys p.entry) :
    ∃ env, s.bindArguments ((p.inputs s).zip args) 0 Table.empty = .ok env := by
  refine bindArguments_ok ?_ 0 Table.empty
  intro pair hpair
  obtain ⟨k, hk⟩ := List.getElem?_of_mem hpair
  obtain ⟨hinput, harg⟩ := List.getElem?_zip_eq_some.1 hk
  refine hs.valueTy_input hinput ?_
  rw [← hargs, List.getElem?_map, harg]
  rfl

/-- **Values that are known give scalars of their types.** -/
theorem mapM_get_of_typed {env : Env} {vs : List ValueId} (h : ∀ v ∈ vs, s.Typed env v) :
    ∃ xs, vs.mapM env.get = .ok xs ∧ vs.map s.valueTy = xs.map fun x => .ok x.ty := by
  induction vs with
  | nil => exact ⟨[], rfl, rfl⟩
  | cons v rest ih =>
    obtain ⟨⟨x, hx, hty⟩, hrest⟩ := List.forall_mem_cons.1 h
    obtain ⟨xs, hxs, htys⟩ := ih hrest
    refine ⟨x :: xs, ?_, ?_⟩
    · rw [List.mapM_cons, Env.get_eq_ok_iff.2 hx, hxs]
      rfl
    · rw [List.map_cons, List.map_cons, htys, valueTy_eq_ok_iff.2 hty]

/-- The ways in which a run of operations that flow ends: with a scalar for each operand of the
first `ret`, and of the type of that operand, at a division by zero, or behind operations without a
`ret`. -/
inductive RunEnd (s : Store) (ops : List OpId) : Attempt EvalError (List Scalar) → Prop
  | outputs {front back : List OpId} {last : OpId} {d : Operation} {outputs : List Scalar}
      (split : ops = front ++ last :: back) (front_ne_ret : ∀ o ∈ front, s.opcode? o ≠ some .ret)
      (entry : s.ops[last.index]? = some d) (ret : d.opcode = .ret)
      (tys : d.operands.map s.valueTy = outputs.map fun x => .ok x.ty) :
      RunEnd s ops (.ok outputs)
  | divisionByZero {o : OpId} (mem : o ∈ ops) (divides : s.DividesIntegers o) :
      RunEnd s ops (Attempt.fail (.divisionByZero o))
  | missingReturn (ne_ret : ∀ o ∈ ops, s.opcode? o ≠ some .ret) :
      RunEnd s ops (Attempt.fail .missingReturn)

/-- A list holds a `ret`, and is split at the first one, or holds none. -/
theorem exists_first_ret (s : Store) (ops : List OpId) :
    (∀ o ∈ ops, s.opcode? o ≠ some .ret) ∨
      ∃ front last back, ops = front ++ last :: back ∧ s.opcode? last = some .ret ∧
        ∀ o ∈ front, s.opcode? o ≠ some .ret := by
  induction ops with
  | nil => exact .inl nofun
  | cons o rest ih =>
    by_cases hret : s.opcode? o = some .ret
    · exact .inr ⟨[], o, rest, rfl, hret, nofun⟩
    · rcases ih with hnone | ⟨front, last, back, rfl, hlast, hfront⟩
      · exact .inl (List.forall_mem_cons.2 ⟨hret, hnone⟩)
      · exact .inr ⟨o :: front, last, back, rfl, hlast, List.forall_mem_cons.2 ⟨hret, hfront⟩⟩

/-- **How a run of a program ends whose operations flow**, on arguments of its input types. -/
theorem Flow.runEnd (hs : s.Owned) {ops : List OpId} (hlisted : p.ops s = .ok ops)
    (hflow : s.Flow p [] ops) {args : List Scalar}
    (hargs : args.map Scalar.ty = s.argTys p.entry) : s.RunEnd ops (s.run p args) := by
  have hlength : (p.inputs s).length = args.length := by
    rw [← List.length_map Scalar.ty, hargs]
    exact hs.length_args p.entry
  obtain ⟨env, henv⟩ := hs.bindArguments_inputs hargs
  have hrun : s.run p args = s.execute ops env := by
    rw [run, if_neg (Decidable.not_not.2 hlength), hlisted, henv]
    rfl
  have hsettled := settled_bindArguments hlength henv
  have hentries : ∀ front back, ops = front ++ back → (∀ o ∈ front, s.opcode? o ≠ some .ret) →
      ∀ o ∈ front, ∃ d, s.ops[o.index]? = some d ∧ d.opcode ≠ .ret := by
    rintro front back rfl hfront o ho
    obtain ⟨d, hd, -⟩ := hflow.fits (List.mem_append_left _ ho)
    refine ⟨d, hd, fun hret => hfront o ho ?_⟩
    rw [opcode?, hd, Option.map_some, hret]
  rw [hrun]
  rcases s.exists_first_ret ops with hnone | ⟨front, last, back, hsplit, hlast, hfront⟩
  · have hall := execute_append (hentries ops [] (List.append_nil ops).symm hnone) [] env
    rw [List.append_nil] at hall
    rw [hall]
    rcases hsettled.advance_outcome hs hflow hnone with
      ⟨env', hok, -⟩ | ⟨o, ho, hfail, hdivides⟩
    · rw [hok]
      exact .missingReturn hnone
    · rw [hfail]
      exact .divisionByZero ho hdivides
  · rw [hsplit] at hflow ⊢
    obtain ⟨hfrontFlow, ⟨d, hd, hfits⟩, -⟩ := flow_append.1 hflow
    rw [opcode?, hd] at hlast
    have hret : d.opcode = .ret := Option.some.inj hlast
    rw [execute_append (hentries front _ hsplit hfront)]
    -- the operations before the `ret` settle the environment, so its operands are known
    rcases hsettled.advance_outcome hs hfrontFlow hfront with
      ⟨env', hok, hset⟩ | ⟨o, ho, hfail, hdivides⟩
    · obtain ⟨outputs, houtputs, htys⟩ :=
        mapM_get_of_typed fun v hv' => hset.typed v (hfits.operands v hv')
      have hexecute : (s.advance front env >>= s.execute (last :: back)) = .ok outputs := by
        rw [hok]
        exact (execute_ret hd hret back env').trans houtputs
      rw [hexecute]
      exact .outputs rfl hfront hd hret htys
    · rw [hfail]
      exact .divisionByZero (List.mem_append_left _ ho) hdivides

/-- **How a run of a valid program ends**, on arguments of its input types: with a scalar for
each operand of the last operation, a `ret`, and of the type of that operand, or at a division
by zero. -/
theorem Valid.run_outcome (hs : s.Owned) {ops : List OpId} (hv : s.Valid p ops)
    {args : List Scalar} (hargs : args.map Scalar.ty = s.argTys p.entry) :
    (∃ outputs last d, s.run p args = .ok outputs ∧ ops.getLast? = some last ∧
        s.ops[last.index]? = some d ∧ d.opcode = .ret ∧
        d.operands.map s.valueTy = outputs.map fun x => .ok x.ty) ∨
      ∃ o ∈ ops, s.run p args = Attempt.fail (.divisionByZero o) ∧ s.DividesIntegers o := by
  obtain ⟨body, final, rfl, hfinal, hbody⟩ := hv.ending
  have hend := hv.flow.runEnd hs hv.listed hargs
  generalize s.run p args = answer at hend
  cases hend with
  | @outputs front back last d outputs split front_ne_ret entry ret tys =>
    -- the only `ret` is the last operation
    have hlast : last = final := by
      have hmem : last ∈ body ++ [final] := split ▸ List.mem_append_right _ List.mem_cons_self
      rcases List.mem_append.1 hmem with hmem | hmem
      · refine absurd ?_ (hbody last hmem)
        rw [opcode?, entry, Option.map_some, ret]
      · exact List.mem_singleton.1 hmem
    exact .inl ⟨outputs, last, d, rfl, by rw [hlast, List.getLast?_concat], entry, ret, tys⟩
  | @divisionByZero o mem divides => exact .inr ⟨o, mem, rfl, divides⟩
  | missingReturn ne_ret => exact absurd hfinal (ne_ret final (by simp))

/-- **Validation is sound for runs.** A program without violations, on arguments of its input types,
gives one output for each operand of its final `ret`, of the type of that operand, or stops at a
division or remainder of integers that it lists. There is no other error, and no fault. -/
theorem Reachable.run_of_validate (hs : s.Reachable) (hv : s.validate p = .ok [])
    {args : List Scalar} (hargs : p.inputTys s = .ok (args.map Scalar.ty)) :
    ∃ ops, p.ops s = .ok ops ∧
      ((∃ outputs last d, s.run p args = .ok outputs ∧ ops.getLast? = some last ∧
          s.op last = .ok d ∧ d.opcode = .ret ∧
          d.operands.map s.valueTy = outputs.map fun x => .ok x.ty) ∨
        ∃ o ∈ ops, ∃ d w, s.run p args = Attempt.fail (.divisionByZero o) ∧ s.op o = .ok d ∧
          (d.opcode = .binary .div ∨ d.opcode = .binary .rem) ∧ d.resultTy? = some (.int w)) := by
  obtain ⟨ops, hvalid⟩ := (validate_eq_nil_iff hs.consistent p).1 hv
  have htys : args.map Scalar.ty = s.argTys p.entry :=
    Except.ok.inj (hargs.symm.trans hvalid.inputTys)
  refine ⟨ops, hvalid.listed, ?_⟩
  rcases hvalid.run_outcome hs.consistent.owned htys with
    ⟨outputs, last, d, hrun, hlast, hd, hret, houtputs⟩ | ⟨o, ho, hrun, d, w, hd, hdiv, hw⟩
  · exact .inl ⟨outputs, last, d, hrun, hlast, op_eq_ok_iff.2 hd, hret, houtputs⟩
  · exact .inr ⟨o, ho, d, w, hrun, op_eq_ok_iff.2 hd, hdiv, hw⟩

/-- A store that holds the program of the quotient of two inputs. -/
def quotientStore : Store where
  ops := #[⟨.binary .div, [⟨0⟩, ⟨1⟩], some (.int .w8), some ⟨2⟩, some ⟨0⟩⟩,
    ⟨.ret, [⟨2⟩, ⟨0⟩], none, none, some ⟨0⟩⟩]
  values := #[⟨.argument ⟨0⟩ 0, .int .w8⟩, ⟨.argument ⟨0⟩ 1, .int .w8⟩, ⟨.result ⟨0⟩, .int .w8⟩]
  blocks := #[⟨[.int .w8, .int .w8], [⟨0⟩, ⟨1⟩], [⟨0⟩, ⟨1⟩]⟩]
  chains := ⟨#[some [⟨⟨0⟩, 0⟩, ⟨⟨1⟩, 1⟩], some [⟨⟨0⟩, 1⟩], some [⟨⟨1⟩, 0⟩]]⟩

theorem reachable_quotientStore : quotientStore.Reachable :=
  Reachable.foldlM .empty
    (show [.createBlock [.int .w8, .int .w8] [],
        .createOp ⟨.binary .div, [⟨0⟩, ⟨1⟩], some (.int .w8), none⟩, .pushOp ⟨0⟩ ⟨0⟩,
        .createOp ⟨.ret, [⟨2⟩, ⟨0⟩], none, none⟩, .pushOp ⟨0⟩ ⟨1⟩].foldlM Change.apply Store.empty =
      .ok quotientStore from rfl)

theorem run_of_validate_quotient :
    let p : Program := ⟨"quotient", ⟨0⟩⟩
    ∃ ops, p.ops quotientStore = .ok ops ∧ ∃ o ∈ ops,
      quotientStore.run p [.int .w8 7, .int .w8 0] = Attempt.fail (.divisionByZero o) := by
  intro p
  have htys : p.inputTys quotientStore =
      .ok (([.int .w8 7, .int .w8 0] : List Scalar).map Scalar.ty) := rfl
  obtain ⟨ops, hops, hend⟩ :=
    Reachable.run_of_validate reachable_quotientStore (by decide +kernel) htys
  refine ⟨ops, hops, ?_⟩
  rcases hend with ⟨outputs, last, d, hrun, -⟩ | ⟨o, ho, d, w, hrun, -⟩
  · cases (show quotientStore.run p [.int .w8 7, .int .w8 0] =
        Attempt.fail (.divisionByZero ⟨0⟩) from rfl).symm.trans hrun
  · exact ⟨o, ho, hrun⟩

end Mba.Store
