import Mba.Proofs.Mutation.Behaviour

/-!
# Emitting a template refines its evaluation

A template has two readings: its value on two words, and the operations that are put in front of an
operation for it. Where a run comes to the operation, the emitted operations give their value the
integer that the template has on the two operands, whether or not that is what the operation
computes, and bits of the operands beyond the width make no difference.

Results:
* `Reaches.run_eq`: behind the operations that a run has reached, it goes on with the rest.
* `Emission.reaches`: emitting a template changes nothing in front of it.
* `Emission.expanded`: the emitted operations compute the template, and all else stays.
* `expand_spec`: what putting a template in front of an eligible operation does.
-/

namespace Mba.Store

variable {s s' : Store} {p : Program} {o : OpId} {args : List Scalar} {done : List OpId} {env : Env}

/-! ## Runs that reach an operation -/

/-- A run on the arguments executes the operations `done`, none of which is a `ret`, and has the
environment `env` behind them. -/
structure Reaches (s : Store) (p : Program) (args : List Scalar) (done : List OpId) (env : Env) :
    Prop where
  length : (p.inputs s).length = args.length
  path : ∃ start, s.bindArguments ((p.inputs s).zip args) 0 Table.empty = .ok start ∧
    s.advance done start = .ok env

/-- **Behind the operations that a run has reached, it goes on with the rest.** -/
theorem Reaches.run_eq {rest : List OpId} (h : s.Reaches p args done env)
    (hlisted : p.ops s = .ok (done ++ rest))
    (hret : ∀ o ∈ done, ∃ d, s.ops[o.index]? = some d ∧ d.opcode ≠ .ret) :
    s.run p args = s.execute rest env := by
  obtain ⟨start, hstart, hadvance⟩ := h.path
  rw [run, if_neg (not_not.2 h.length), hlisted, hstart]
  show s.execute (done ++ rest) start = _
  rw [execute_append hret, hadvance]
  rfl

theorem Reaches.append {more : List OpId} {env' : Env} (h : s.Reaches p args done env)
    (hmore : s.advance more env = .ok env') : s.Reaches p args (done ++ more) env' := by
  obtain ⟨start, hstart, hadvance⟩ := h.path
  refine ⟨h.length, start, hstart, ?_⟩
  rw [advance_append, hadvance]
  exact hmore

theorem Reaches.settled (hs : s.Owned) (hflow : s.Flow p [] done)
    (hret : ∀ o ∈ done, s.opcode? o ≠ some .ret) (h : s.Reaches p args done env) :
    s.Settled p done env := by
  obtain ⟨start, hstart, hadvance⟩ := h.path
  have hflow' : s.Flow p [] ([] ++ done) := hflow
  exact (settled_bindArguments h.length hstart).advance hs hflow' hret hadvance

/-! ## Emitted operations -/

variable {before after fresh : List OpId} {x y : ValueId} {w : Width} {known : List Known}

/-- **Emitting a template changes nothing in front of it.** -/
theorem Emission.reaches (h : s.Emission p o before after x y w s' fresh known)
    (hsite : s.Site p o before after) (hreach : s.Reaches p args before env) :
    s'.Reaches p args before env := by
  obtain ⟨start, hstart, hadvance⟩ := hreach.path
  have hinputs : p.inputs s' = p.inputs s := h.grown.args p.entry
  refine ⟨by rw [hinputs]; exact hreach.length, start, ?_, ?_⟩
  · rw [hinputs, ← hstart]
    refine bindArguments_congr (fun v hv => ?_) 0 _
    obtain ⟨pair, hpair, rfl⟩ := List.mem_map.1 hv
    have hinput : s.Defines p [] pair.1 := .inl (List.of_mem_zip hpair).1
    have hlt := of_decide_eq_true (hinput.isAllocated hsite.consistent.owned)
    rw [valueTy, valueTy, value, value, h.grown.values _ hlt]
  · rw [← hadvance]
    refine advance_congr (fun o' ho' => ?_) start
    obtain ⟨d, hd, -⟩ := hsite.exists_ne_ret ho'
    rw [h.grown.ops_of_some hd, hd]

/-- A slot that reads a value of an integer type gives an integer of its width. -/
theorem Settled.int_operand (henv : s.Settled p done env) {d : Operation} (hfits : s.Fits p done d)
    {slot : Nat} {v : ValueId} (hv : d.operands[slot]? = some v) {w w' : Width} {a : UInt64}
    (hty : s.values[v.index]?.map (·.ty) = some (.int w))
    (hvalue : operandValue d env slot = .ok (.int w' a)) :
    w' = w ∧ env.get? v.index = some (.int w a) := by
  obtain ⟨c, hc⟩ :=
    (henv.typed v (hfits.operands v (List.mem_of_getElem? hv))).exists_int hty
  rw [operandValue_eq hv hc] at hvalue
  cases hvalue
  exact ⟨rfl, hc⟩

/-! ## Expansions -/

/-- What putting the template of an expansion in front of an operation does. -/
structure Expanded (s : Store) (p : Program) (o : OpId) (before after : List OpId) (e : Expansion)
    (s' : Store) : Prop where
  listed : p.ops s = .ok (before ++ o :: after)
  notMem : o ∉ before
  /-- The new operations have the next numbers, in the order of their places. -/
  fresh : e.emitted = (List.range' s.ops.size e.template.instructionCount).map OpId.mk
  size_ops : s'.ops.size = s.ops.size + e.template.instructionCount
  /-- They are listed directly in front of the operation, and all others where they were. -/
  placed : p.ops s' = .ok (before ++ e.emitted ++ o :: after)
  elsewhere : ∀ b, b ≠ p.entry → s'.block b = s.block b
  kept : ∀ i, i < s.ops.size → s'.ops[i]? = s.ops[i]?
  /-- Where a run comes to the operation, it passes the new operations, and the value of the
  template is then known under the result of the expansion. -/
  computes : ∀ args env d w a b, s.Reaches p args before env → s.op o = .ok d →
    operandValue d env 0 = .ok (.int w a) → operandValue d env 1 = .ok (.int w b) →
    ∃ env' r, s'.Reaches p args (before ++ e.emitted) env' ∧
      s'.run p args = s'.execute (o :: after) env' ∧
      env'.get e.result = .ok (.int w r) ∧ e.template.evaluate a b w = some r ∧
      ∀ v, s.isAllocated v = true → env'.get v = env.get v

theorem Emission.expanded {op : BinaryOp} {index : Nat} {t : Template} {v : ValueId}
    {d : Operation} (h : s.Emission p o before after x y w s' fresh known)
    (hsite : s.Site p o before after) (ht : t.WellShaped) (hd : s.ops[o.index]? = some d)
    (hoperands : d.operands = [x, y]) (hx : s.values[x.index]?.map (·.ty) = some (.int w))
    (hy : s.values[y.index]?.map (·.ty) = some (.int w)) (hv : (v, t.onWords) ∈ known)
    (hnew : s.values.size ≤ v.index) (hcount : fresh.length = t.instructionCount) :
    s.Expanded p o before after ⟨o, op, index, t, v, fresh⟩ s' where
  listed := hsite.valid.listed
  notMem := hsite.notMem
  fresh := hcount ▸ h.grown.fresh_eq
  size_ops := hcount ▸ h.grown.size_ops
  placed := h.site.valid.listed
  elsewhere b hb := by
    have hindex : b.index ≠ p.entry.index := fun heq =>
      hb (by cases b; exact congrArg BlockId.mk heq)
    rw [block, block, h.grown.blocks _ hindex]
  kept := h.grown.ops
  computes := by
    intro args env d' w' a b hreach hd' ha hb
    obtain rfl : d = d' := Option.some.inj (hd.symm.trans (op_eq_ok_iff.1 hd'))
    obtain ⟨hflow, ⟨d', hentry, hfits⟩, -⟩ := flow_append.1 hsite.valid.flow
    obtain rfl : d = d' := Option.some.inj (hd.symm.trans hentry)
    have hsettled := hreach.settled hsite.consistent.owned hflow fun o' => hsite.opcode_ne_ret
    -- the scalars of the operands have the width of their types
    obtain ⟨rfl, hx'⟩ := hsettled.int_operand hfits (by rw [hoperands]; rfl) hx ha
    obtain ⟨-, hy'⟩ := hsettled.int_operand hfits (by rw [hoperands]; rfl) hy hb
    obtain ⟨env', hadvance, hkeep, -, hexact⟩ := h.computed env a b hx' hy'
    have hreach' := (h.reaches hsite hreach).append hadvance
    refine ⟨env', w'.wrap (t.onWords a b), hreach', ?_, ?_, t.evaluate_eq_wrap ht a b w', ?_⟩
    · exact hreach'.run_eq h.site.valid.listed fun o' => h.site.exists_ne_ret
    · exact Env.get_eq_ok_iff.2 (hexact _ hv hnew)
    · intro u hu
      rw [Env.get, Env.get, hkeep _ (of_decide_eq_true hu)]

/-- **Emitting a template refines its evaluation.** A well-shaped template has a value on all words
of all widths. Putting a template of a catalog in front of an eligible operation of a valid program
succeeds: its operations are new, stand in order directly in front of the operation, and compute the
value of the template wherever a run comes to the operation. -/
theorem expand_spec (c : Catalog) :
    (∀ t : Template, t.WellShaped → ∀ x y w, ∃ r, t.evaluate x y w = some r) ∧
      ∀ (s : Store) (p : Program) (ops : List OpId) (o : OpId) (op : BinaryOp) (index : Nat)
        (t : Template), s.Reachable → s.OperandsAllocated → s.validate p = .ok [] →
        p.ops s = .ok ops → o ∈ ops → s.eligibility o = .ok op →
        (c.templates op)[index]? = some t →
        ∃ v emitted s' before after,
          expand c o index s = .done ⟨o, op, index, t, v, emitted⟩ s' ∧
          s.Expanded p o before after ⟨o, op, index, t, v, emitted⟩ s' := by
  refine ⟨fun t ht x y w => ⟨_, t.evaluate_eq_wrap ht x y w⟩, ?_⟩
  intro s p ops o op index t hreach hallocated hvalidate hops ho heligible ht
  obtain ⟨ops', hvalid⟩ := (validate_eq_nil_iff hreach.consistent p).1 hvalidate
  obtain rfl : ops' = ops := Except.ok.inj (hvalid.listed.symm.trans hops)
  obtain ⟨d, x, y, w, hd, -, -, hoperands, hx, hy, -⟩ := eligibility_ok heligible
  obtain ⟨before, after, -, hsite⟩ := hvalid.exists_site hreach.consistent hallocated ho
  obtain ⟨v, s', fresh, known, hexpand, hemission, hv, hnew, hcount⟩ :=
    expand_eq_done hsite heligible ht hd hoperands hx hy
  refine ⟨v, fresh, s', before, after, hexpand, ?_⟩
  exact hemission.expanded hsite (c.wellShaped op t (List.mem_of_getElem? ht)) hd hoperands hx hy hv
    hnew hcount

theorem expand_spec_sum :
    let p : Program := ⟨"sum", ⟨0⟩⟩
    ∃ (e : Expansion) (s' : Store) (env : Env) (r : UInt64),
      expand Catalog.standard ⟨0⟩ 0 Bench.sumStore = .done e s' ∧
      s'.Reaches p [.int .w32 0x100000005, .int .w32 7] e.emitted env ∧
      env.get e.result = .ok (.int .w32 r) ∧
      e.template.evaluate 0x100000005 7 .w32 = some r := by
  intro p
  obtain ⟨t, ht⟩ : ∃ t, (Catalog.standard.templates .add)[0]? = some t := ⟨_, rfl⟩
  obtain ⟨v, emitted, s', before, after, hexpand, h⟩ := (expand_spec Catalog.standard).2
    Bench.sumStore p [⟨0⟩, ⟨1⟩] ⟨0⟩ .add 0 t Bench.reachable_sumStore (by decide) (by decide +kernel)
    rfl (by decide) rfl ht
  -- the operation is the first one of its program
  obtain rfl : before = [] := by
    have hlisted : [⟨0⟩, ⟨1⟩] = before ++ (⟨0⟩ : OpId) :: after := Except.ok.inj h.listed
    cases before with
    | nil => rfl
    | cons o rest =>
      obtain ⟨rfl, -⟩ := List.cons.inj hlisted
      exact absurd List.mem_cons_self h.notMem
  obtain ⟨env, r, hreach, -, hget, hvalue, -⟩ := h.computes
    [.int .w32 0x100000005, .int .w32 7] _ _ .w32 0x100000005 7 ⟨rfl, _, rfl, rfl⟩ rfl rfl rfl
  exact ⟨_, s', env, r, hexpand, hreach, hget, hvalue⟩

end Mba.Store
