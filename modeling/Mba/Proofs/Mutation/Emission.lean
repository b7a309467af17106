import Mba.Mutation.Expansion
import Mba.Proofs.Mutation.Site
import Mba.Proofs.Program.Execution
import Mba.Proofs.Truncation

/-!
# Emitting a template

A template is emitted before the anchor of a site, for two values `x` and `y` of an integer type.
The emission keeps `Emission`: the store is still a site and has grown by the operations emitted so
far, and each value known to the emission has a function of words attached, which is what a run of
the emitted operations computes there, up to the width.

Results:
* `Grown`: what emitting leaves as it was.
* `Emission.emitValue`: one operation more, and its value is known.
* `emit_eq_done`: a well-shaped template is emitted without errors, as one operation for each step
  and each literal, and running them computes the template.
-/

namespace Mba

/-- What templates are emitted as: constants and operators on words. -/
def Opcode.isOnWords : Opcode → Bool
  | .const _ | .unary _ | .binary _ => true
  | .fconst _ | .compare _ | .ret => false

namespace Store

variable {s s' s'' : Store} {p : Program} {o : OpId}

/-! ## Growth -/

/-- The second store is the first with the operations `fresh` emitted in the block of a program. -/
structure Grown (s s' : Store) (p : Program) (fresh : List OpId) : Prop where
  ops : ∀ i, i < s.ops.size → s'.ops[i]? = s.ops[i]?
  values : ∀ i, i < s.values.size → s'.values[i]? = s.values[i]?
  size_ops : s'.ops.size = s.ops.size + fresh.length
  size_values : s'.values.size = s.values.size + fresh.length
  numbers : ∀ (k : Nat) (o : OpId), fresh[k]? = some o → o = ⟨s.ops.size + k⟩ ∧
    ∃ d, s'.ops[o.index]? = some d ∧ d.opcode.isOnWords = true ∧
      d.result? = some ⟨s.values.size + k⟩
  args : ∀ b, s'.args b = s.args b
  argTys : ∀ b, s'.argTys b = s.argTys b
  blocks : ∀ i, i ≠ p.entry.index → s'.blocks[i]? = s.blocks[i]?

theorem Grown.refl (s : Store) (p : Program) : s.Grown s p [] := by
  constructor <;> simp

theorem Grown.emitted {fresh listing : List OpId} {opcode : Opcode} {operands : List ValueId}
    {ty : Ty} (h : s.Grown s' p fresh)
    (he : s'.Emitted p.entry listing ⟨opcode, operands, some ty, none⟩ s'')
    (hwords : opcode.isOnWords = true) : s.Grown s'' p (fresh ++ [⟨s'.ops.size⟩]) := by
  have hops := h.size_ops
  have hvalues := h.size_values
  constructor
  case ops =>
    intro i hi
    rw [he.getElem?_ops, if_neg (by omega), h.ops i hi]
  case values =>
    intro i hi
    rw [he.getElem?_values, if_neg (by omega), h.values i hi]
  case size_ops =>
    rw [he.ops, Array.size_push, List.length_append, List.length_singleton]
    omega
  case size_values =>
    rw [he.values, Array.size_push, List.length_append, List.length_singleton]
    omega
  case numbers =>
    intro k o hk
    rw [List.getElem?_append] at hk
    split at hk
    · obtain ⟨ho, d, hd, hopcode, hresult⟩ := h.numbers k o hk
      exact ⟨ho, d, he.ops_of_some hd, hopcode, hresult⟩
    · next hk' =>
      obtain rfl : k = fresh.length := by
        have := (List.getElem?_eq_some_iff.1 hk).1
        rw [List.length_singleton] at this
        omega
      obtain rfl : ⟨s'.ops.size⟩ = o := by simpa using hk
      refine ⟨by rw [hops], _, he.entry, hwords, ?_⟩
      show some (⟨s'.values.size⟩ : ValueId) = _
      rw [hvalues]
  case args => exact fun b => (he.args b).trans (h.args b)
  case argTys => exact fun b => (he.argTys b).trans (h.argTys b)
  case blocks =>
    intro i hi
    rw [he.blocks, Array.getElem?_modify, if_neg (Ne.symm hi), h.blocks i hi]

/-- The new operations have the next numbers. -/
theorem Grown.fresh_eq {fresh : List OpId} (h : s.Grown s' p fresh) :
    fresh = (List.range' s.ops.size fresh.length).map OpId.mk := by
  refine List.ext_getElem (by simp) fun k hk _ => ?_
  rw [(h.numbers k _ (List.getElem?_eq_getElem hk)).1]
  simp

theorem Grown.le_of_mem_fresh {fresh : List OpId} (h : s.Grown s' p fresh) (ho : o ∈ fresh) :
    s.ops.size ≤ o.index := by
  rw [h.fresh_eq] at ho
  obtain ⟨i, hi, rfl⟩ := List.mem_map.1 ho
  exact (List.mem_range'_1.1 hi).1

theorem Grown.nodup_fresh {fresh : List OpId} (h : s.Grown s' p fresh) : fresh.Nodup := by
  rw [h.fresh_eq]
  exact List.Pairwise.map _ (fun i j hne heq => hne (congrArg OpId.index heq)) List.nodup_range'

theorem Grown.ops_of_some {fresh : List OpId} (h : s.Grown s' p fresh) {i : Nat} {d : Operation}
    (hd : s.ops[i]? = some d) : s'.ops[i]? = some d := by
  rw [h.ops i (Array.getElem?_eq_some_iff.1 hd).1, hd]

theorem Grown.values_of_some {fresh : List OpId} (h : s.Grown s' p fresh) {i : Nat} {x : Value}
    (hx : s.values[i]? = some x) : s'.values[i]? = some x := by
  rw [h.values i (Array.getElem?_eq_some_iff.1 hx).1, hx]

/-! ## Known values -/

/-- A value and the function of words that it has while a template is emitted. -/
abbrev Known := ValueId × WordFn

/-- An environment gives the value an integer that agrees with the function up to the width. The
inputs of an emission may have bits beyond it. -/
def Known.HoldsAt (k : Known) (w : Width) (a b : UInt64) (env : Env) : Prop :=
  ∃ c, env.get? k.1.index = some (.int w c) ∧ w.wrap c = w.wrap (k.2 a b)

/-- The state of an emission that started at the store `s`: the operations `fresh` have been emitted
and the values `known` may be used. -/
structure Emission (s : Store) (p : Program) (anchor : OpId) (before after : List OpId)
    (x y : ValueId) (w : Width) (s' : Store) (fresh : List OpId) (known : List Known) : Prop where
  grown : s.Grown s' p fresh
  site : s'.Site p anchor (before ++ fresh) after
  usable : ∀ k ∈ known, s'.Defines p (before ++ fresh) k.1 ∧
    s'.values[k.1.index]?.map (·.ty) = some (.int w)
  inputs : (x, fun a _ => a) ∈ known ∧ (y, fun _ b => b) ∈ known
  /-- A run of the new operations keeps every value of the start, and gives the known values what
  their functions compute. The new ones among them have no bits beyond the width. -/
  computed : ∀ env a b, env.get? x.index = some (.int w a) → env.get? y.index = some (.int w b) →
    ∃ env', s'.advance fresh env = .ok env' ∧
      (∀ i, i < s.values.size → env'.get? i = env.get? i) ∧
      (∀ k ∈ known, k.HoldsAt w a b env') ∧
      ∀ k ∈ known, s.values.size ≤ k.1.index →
        env'.get? k.1.index = some (.int w (w.wrap (k.2 a b)))

variable {anchor : OpId} {before after : List OpId} {x y : ValueId} {w : Width}

theorem Emission.start (h : s.Site p anchor before after) (hx : s.Defines p before x)
    (hy : s.Defines p before y) (hxty : s.values[x.index]?.map (·.ty) = some (.int w))
    (hyty : s.values[y.index]?.map (·.ty) = some (.int w)) :
    s.Emission p anchor before after x y w s [] [(x, fun a _ => a), (y, fun _ b => b)] := by
  constructor
  case grown => exact Grown.refl s p
  case site => rwa [List.append_nil]
  case usable =>
    rw [List.append_nil]
    intro k hk
    rcases List.mem_cons.1 hk with rfl | hk
    · exact ⟨hx, hxty⟩
    · obtain rfl := List.mem_singleton.1 hk
      exact ⟨hy, hyty⟩
  case inputs => simp
  case computed =>
    intro env a b ha hb
    refine ⟨env, rfl, fun _ _ => rfl, fun k hk => ?_, fun k hk hnew => ?_⟩
    · rcases List.mem_cons.1 hk with rfl | hk
      · exact ⟨a, ha, rfl⟩
      · obtain rfl := List.mem_singleton.1 hk
        exact ⟨b, hb, rfl⟩
    · have hold : k.1.index < s.values.size := by
        rcases List.mem_cons.1 hk with rfl | hk
        · exact of_decide_eq_true (hx.isAllocated h.consistent.owned)
        · obtain rfl := List.mem_singleton.1 hk
          exact of_decide_eq_true (hy.isAllocated h.consistent.owned)
      exact absurd hold (Nat.not_lt.2 hnew)

/-- An operation of an integer type over known values emits a value that computes `f`, if it gives
the low bits of what `f` does wherever its operands hold. -/
structure Realizes (s : Store) (known : List Known) (w : Width) (opcode : Opcode)
    (operands : List ValueId) (f : WordFn) : Prop where
  reads : ∀ v ∈ operands, ∃ g, (v, g) ∈ known
  typed : s.typeDefect? ⟨opcode, operands, some (.int w), none, none⟩ = none
  computes : ∀ o result? parent? env a b, (∀ k ∈ known, k.HoldsAt w a b env) →
    compute o ⟨opcode, operands, some (.int w), result?, parent?⟩ env =
      .ok (some (.int w (w.wrap (f a b))))

namespace Emission

variable {fresh : List OpId} {known : List Known} {listing : List OpId} {opcode : Opcode}
  {operands : List ValueId} {f : WordFn}

theorem lt_of_mem_known (h : s.Emission p anchor before after x y w s' fresh known) {k : Known}
    (hk : k ∈ known) : k.1.index < s'.values.size := by
  obtain ⟨v, hv, -⟩ := Option.map_eq_some_iff.1 (h.usable k hk).2
  exact (Array.getElem?_eq_some_iff.1 hv).1

/-- A run of the operations so far is one in the store with one operation more. -/
theorem advance_emitted (h : s.Emission p anchor before after x y w s' fresh known) {draft : Draft}
    (he : s'.Emitted p.entry listing draft s'') (env : Env) :
    s''.advance fresh env = s'.advance fresh env := by
  refine advance_congr (fun o ho => ?_) env
  obtain ⟨k, hk⟩ := List.getElem?_of_mem ho
  obtain ⟨-, d, hd, -⟩ := h.grown.numbers k o hk
  rw [he.ops_of_some hd, hd]

/-- **A run computes the new value**, and keeps what it had computed before. -/
theorem computed_emitted (h : s.Emission p anchor before after x y w s' fresh known)
    (hr : s'.Realizes known w opcode operands f)
    (he : s'.Emitted p.entry listing ⟨opcode, operands, some (.int w), none⟩ s'') {env : Env}
    {a b : UInt64} (ha : env.get? x.index = some (.int w a))
    (hb : env.get? y.index = some (.int w b)) :
    ∃ env', s''.advance (fresh ++ [⟨s'.ops.size⟩]) env = .ok env' ∧
      (∀ i, i < s.values.size → env'.get? i = env.get? i) ∧
      (∀ k : Known, k ∈ (⟨s'.values.size⟩, f) :: known → k.HoldsAt w a b env') ∧
      ∀ k : Known, k ∈ (⟨s'.values.size⟩, f) :: known → s.values.size ≤ k.1.index →
        env'.get? k.1.index = some (.int w (w.wrap (k.2 a b))) := by
  obtain ⟨env', hadvance, hkeep, hholds, hexact⟩ := h.computed env a b ha hb
  have hnew : s''.ops[(⟨s'.ops.size⟩ : OpId).index]? = some ⟨opcode, operands, some (.int w),
      some ⟨s'.values.size⟩, some p.entry⟩ := he.entry
  have hcompute :=
    hr.computes ⟨s'.ops.size⟩ (some ⟨s'.values.size⟩) (some p.entry) env' a b hholds
  let c := w.wrap (f a b)
  have hset : (env'.set ⟨s'.values.size⟩ (.int w c)).get? s'.values.size = some (.int w c) :=
    env'.get_set_self ⟨s'.values.size⟩ _
  have hother : ∀ i, i < s'.values.size →
      (env'.set ⟨s'.values.size⟩ (.int w c)).get? i = env'.get? i := fun i hi =>
    env'.get_set_of_ne _ (Nat.ne_of_lt hi)
  refine ⟨env'.set ⟨s'.values.size⟩ (.int w c), ?_, fun i hi => ?_, fun k hk => ?_,
    fun k hk hnewk => ?_⟩
  · rw [advance_append, h.advance_emitted he, hadvance]
    show s''.advance [⟨s'.ops.size⟩] env' = _
    rw [advance_cons hnew, hcompute]
    rfl
  · rw [hother i (by have := h.grown.size_values; omega), hkeep i hi]
  · rcases List.mem_cons.1 hk with rfl | hk
    · exact ⟨c, hset, w.wrap_wrap _⟩
    · obtain ⟨c', hc', hwrap⟩ := hholds k hk
      exact ⟨c', by rw [hother _ (h.lt_of_mem_known hk), hc'], hwrap⟩
  · rcases List.mem_cons.1 hk with rfl | hk
    · exact hset
    · rw [hother _ (h.lt_of_mem_known hk), hexact k hk hnewk]

/-- **One operation more, and its value is known.** -/
theorem emitValue (h : s.Emission p anchor before after x y w s' fresh known)
    (hr : s'.Realizes known w opcode operands f) :
    ∃ s'', Builder.emitValue opcode operands (.int w) ⟨s', .before p.entry anchor, fresh⟩ =
        .done ⟨s'.values.size⟩ ⟨s'', .before p.entry anchor, fresh ++ [⟨s'.ops.size⟩]⟩ ∧
      s.Emission p anchor before after x y w s'' (fresh ++ [⟨s'.ops.size⟩])
        ((⟨s'.values.size⟩, f) :: known) := by
  have hwords : opcode.isOnWords = true := by
    cases typeDefect?_eq_none_iff_wellTyped.1 hr.typed <;> rfl
  obtain ⟨s'', hdone, he⟩ := h.site.exists_emitted opcode operands (.int w) fresh
  have hoperands : ∀ v ∈ operands, s'.Defines p (before ++ fresh) v := by
    intro v hv
    obtain ⟨g, hg⟩ := hr.reads v hv
    exact (h.usable _ hg).1
  have hsite := h.site.emitted hoperands hr.typed he
  refine ⟨s'', hdone, ?_⟩
  constructor
  case grown => exact h.grown.emitted he hwords
  case site => rwa [List.append_assoc] at hsite
  case usable =>
    intro k hk
    rcases List.mem_cons.1 hk with rfl | hk
    · refine ⟨.inr ⟨⟨s'.ops.size⟩, by simp, (he.result? _).trans (if_pos rfl)⟩, ?_⟩
      rw [he.getElem?_values, if_pos rfl]
      rfl
    · obtain ⟨hdefines, hty⟩ := h.usable k hk
      refine ⟨he.defines_of_defines (fun o ho => ?_) hdefines, ?_⟩
      · rw [← List.append_assoc]
        exact List.mem_append_left _ ho
      · rw [he.values_of_lt (h.lt_of_mem_known hk), hty]
  case inputs => exact ⟨List.mem_cons_of_mem _ h.inputs.1, List.mem_cons_of_mem _ h.inputs.2⟩
  case computed => exact fun _ _ _ ha hb => h.computed_emitted hr he ha hb

end Emission

theorem realizes_const (s : Store) (known : List Known) (w : Width) (n : Int) :
    s.Realizes known w (.const (w.ofInt n)) [] fun _ _ => Width.w64.ofInt n where
  reads := by simp
  typed := typeDefect?_eq_none_iff_wellTyped.2 (.const _ w)
  computes o result? parent? env a b _ := by
    have hwrap : w.wrap (w.ofInt n) = w.ofInt n := by rw [Width.ofInt, w.wrap_wrap]
    rw [w.wrap_ofInt_w64, compute]
    simp only [Option.bind_some, Ty.width?, hwrap]

theorem realizes_unary {known : List Known} {v : ValueId} {f : WordFn} (hv : (v, f) ∈ known)
    (hty : s.values[v.index]?.map (·.ty) = some (.int w)) (op : UnaryOp) :
    s.Realizes known w (.unary op) [v] fun a b => op.eval (f a b) .w64 where
  reads u hu := ⟨f, List.mem_singleton.1 hu ▸ hv⟩
  typed := by
    have haccepts : op.accepts (.int w) = true := by cases op <;> rfl
    exact typeDefect?_eq_none_iff_wellTyped.2 (.unary hty haccepts)
  computes o result? parent? env a b hholds := by
    obtain ⟨c, hc, hwrap⟩ := hholds _ hv
    have hvalue : operandValue ⟨.unary op, [v], some (.int w), result?, parent?⟩ env 0 =
        .ok (.int w c) := operandValue_eq rfl hc
    have happly : op.apply? (.int w c) = some (.int w (w.wrap (op.eval (f a b) .w64))) := by
      rw [← op.wrap_eval_w64, ← op.wrap_eval hwrap]
      cases op <;> rfl
    simp only [compute, hvalue, bind, Except.bind, happly]

theorem realizes_binary {known : List Known} {v v' : ValueId} {f g : WordFn}
    (hv : (v, f) ∈ known) (hv' : (v', g) ∈ known)
    (hty : s.values[v.index]?.map (·.ty) = some (.int w))
    (hty' : s.values[v'.index]?.map (·.ty) = some (.int w)) {op : BinaryOp}
    (hop : Template.allowsBinary op = true) :
    s.Realizes known w (.binary op) [v, v'] fun a b => op.onWords (f a b) (g a b) where
  reads u hu := by
    rcases List.mem_cons.1 hu with rfl | hu
    · exact ⟨f, hv⟩
    · exact ⟨g, List.mem_singleton.1 hu ▸ hv'⟩
  typed := by
    have haccepts : op.accepts (.int w) = true := by cases op <;> rfl
    exact typeDefect?_eq_none_iff_wellTyped.2 (.binary hty hty' haccepts)
  computes o result? parent? env a b hholds := by
    obtain ⟨c, hc, hwrap⟩ := hholds _ hv
    obtain ⟨c', hc', hwrap'⟩ := hholds _ hv'
    have hvalue : operandValue ⟨.binary op, [v, v'], some (.int w), result?, parent?⟩ env 0 =
        .ok (.int w c) := operandValue_eq rfl hc
    have hvalue' : operandValue ⟨.binary op, [v, v'], some (.int w), result?, parent?⟩ env 1 =
        .ok (.int w c') := operandValue_eq rfl hc'
    have happly : op.apply (.int w c) (.int w c') =
        .value (.int w (w.wrap (op.onWords (f a b) (g a b)))) := by
      rw [BinaryOp.apply, if_pos rfl, BinaryOp.eval_eq_onWords hop, op.wrap_onWords hwrap hwrap']
    simp only [compute, hvalue, hvalue', bind, Except.bind, happly]

/-! ## Operands, steps and templates -/

open Template (Operand Step)

/-- Calls that emit a value for `f` by `count` operations, whatever was emitted before. -/
def Emits (s : Store) (p : Program) (anchor : OpId) (before after : List OpId) (x y : ValueId)
    (w : Width) (s' : Store) (fresh : List OpId) (known : List Known)
    (calls : Edit Builder BuildError ValueId) (f : WordFn) (count : Nat) : Prop :=
  ∃ v s'' fresh' known',
    calls ⟨s', .before p.entry anchor, fresh⟩ = .done v ⟨s'', .before p.entry anchor, fresh'⟩ ∧
    s.Emission p anchor before after x y w s'' fresh' known' ∧ (∀ k ∈ known, k ∈ known') ∧
    (v, f) ∈ known' ∧ fresh'.length = fresh.length + count ∧
    (0 < count → s.values.size ≤ v.index)

theorem Emission.emits_emitValue {fresh : List OpId} {known : List Known}
    (h : s.Emission p anchor before after x y w s' fresh known) {opcode : Opcode}
    {operands : List ValueId} {f : WordFn} (hr : s'.Realizes known w opcode operands f) :
    s.Emits p anchor before after x y w s' fresh known
      (Builder.emitValue opcode operands (.int w)) f 1 := by
  obtain ⟨s'', hdone, hemission⟩ := h.emitValue hr
  refine ⟨_, s'', _, _, hdone, hemission, fun k hk => List.mem_cons_of_mem _ hk,
    List.mem_cons_self, by simp, fun _ => ?_⟩
  have := h.grown.size_values
  show s.values.size ≤ s'.values.size
  omega

/-- The temporary values and the functions of the steps so far are known. -/
def TempsKnown (temps : List ValueId) (fs : List WordFn) (known : List Known) : Prop :=
  temps.length = fs.length ∧ ∀ k ∈ temps.zip fs, k ∈ known

theorem TempsKnown.mono {temps : List ValueId} {fs : List WordFn} {known known' : List Known}
    (h : TempsKnown temps fs known) (hsub : ∀ k ∈ known, k ∈ known') :
    TempsKnown temps fs known' :=
  ⟨h.1, fun k hk => hsub k (h.2 k hk)⟩

theorem Emission.emits_operand {fresh : List OpId} {known : List Known}
    (h : s.Emission p anchor before after x y w s' fresh known) {temps : List ValueId}
    {fs : List WordFn} (htemps : TempsKnown temps fs known) {a : Operand}
    (ha : a.Ready fs.length) :
    s.Emits p anchor before after x y w s' fresh known (a.emit x y (.int w) temps)
      (a.onWords fs) ([a].countP Operand.isLiteral) := by
  cases a with
  | x =>
    exact ⟨x, s', fresh, known, rfl, h, fun _ hk => hk, h.inputs.1, rfl, fun hpos => nomatch hpos⟩
  | y =>
    exact ⟨y, s', fresh, known, rfl, h, fun _ hk => hk, h.inputs.2, rfl, fun hpos => nomatch hpos⟩
  | lit n => exact h.emits_emitValue (realizes_const s' known w n)
  | tmp i =>
    have hi : i < fs.length := ha
    have hi' : i < temps.length := htemps.1 ▸ hi
    refine ⟨temps[i], s', fresh, known, ?_, h, fun _ hk => hk, htemps.2 _ ?_, rfl,
      fun hpos => nomatch hpos⟩
    · simp only [Operand.emit, Edit.read, List.getElem?_eq_getElem hi']
    · refine List.mem_iff_getElem?.2 ⟨i, ?_⟩
      rw [List.getElem?_zip_eq_some]
      exact ⟨List.getElem?_eq_getElem hi', by simp [Operand.onWords, hi]⟩

theorem Emission.emits_step {fresh : List OpId} {known : List Known}
    (h : s.Emission p anchor before after x y w s' fresh known) {temps : List ValueId}
    {fs : List WordFn} (htemps : TempsKnown temps fs known) {step : Step}
    (hstep : step.Sound fs.length) :
    s.Emits p anchor before after x y w s' fresh known (step.emit x y (.int w) temps)
      (step.onWords fs) (1 + step.operands.countP Operand.isLiteral) := by
  cases step with
  | unary op a =>
    obtain ⟨v, s₁, fresh₁, known₁, hdone, h₁, hsub, hv, hcount, -⟩ :=
      h.emits_operand htemps hstep.unary.2
    have hty := (h₁.usable _ hv).2
    obtain ⟨r, s₂, fresh₂, known₂, hdone₂, h₂, hsub₂, hr, hcount₂, hfresh⟩ :=
      h₁.emits_emitValue (realizes_unary hv hty op)
    refine ⟨r, s₂, fresh₂, known₂, ?_, h₂, fun k hk => hsub₂ k (hsub k hk), hr, ?_,
      fun _ => hfresh Nat.one_pos⟩
    · rw [Step.emit, Edit.bind_done hdone, Builder.unary_eq_emitValue hty (by cases op <;> rfl)]
      exact hdone₂
    · rw [hcount₂, hcount, Step.operands]
      omega
  | binary op a b =>
    obtain ⟨hop, ha, hb⟩ := hstep.binary
    obtain ⟨v, s₁, fresh₁, known₁, hdone, h₁, hsub, hv, hcount, -⟩ := h.emits_operand htemps ha
    obtain ⟨v', s₂, fresh₂, known₂, hdone₂, h₂, hsub₂, hv', hcount₂, -⟩ :=
      h₁.emits_operand (htemps.mono hsub) hb
    have hty := (h₂.usable _ (hsub₂ _ hv)).2
    have hty' := (h₂.usable _ hv').2
    obtain ⟨r, s₃, fresh₃, known₃, hdone₃, h₃, hsub₃, hr, hcount₃, hfresh⟩ :=
      h₂.emits_emitValue (realizes_binary (hsub₂ _ hv) hv' hty hty' hop)
    refine ⟨r, s₃, fresh₃, known₃, ?_, h₃, fun k hk => hsub₃ k (hsub₂ k (hsub k hk)), hr, ?_,
      fun _ => hfresh Nat.one_pos⟩
    · rw [Step.emit, Edit.bind_done hdone, Edit.bind_done hdone₂,
        Builder.binary_eq_emitValue hty hty'
          (by simp [BinaryOp.accepts, Ty.isInt, Ty.isNumeric])]
      exact hdone₃
    · have hsplit : (Step.binary op a b).operands.countP Operand.isLiteral =
          [a].countP Operand.isLiteral + [b].countP Operand.isLiteral := by
        rw [← List.countP_append]
        rfl
      rw [hcount₃, hcount₂, hcount, hsplit]
      omega

theorem Emission.emitSteps {steps : List Step} {temps : List ValueId} {fs : List WordFn}
    {s' : Store} {fresh : List OpId} {known : List Known}
    (h : s.Emission p anchor before after x y w s' fresh known)
    (htemps : TempsKnown temps fs known) (hnew : ∀ v ∈ temps, s.values.size ≤ v.index)
    (hsound : Template.Sound fs.length steps) :
    ∃ temps' s'' fresh' known',
      Template.emitSteps x y (.int w) steps temps ⟨s', .before p.entry anchor, fresh⟩ =
        .done temps' ⟨s'', .before p.entry anchor, fresh'⟩ ∧
      s.Emission p anchor before after x y w s'' fresh' known' ∧
      TempsKnown temps' (Template.stepsOnWords steps fs) known' ∧
      (∀ v ∈ temps', s.values.size ≤ v.index) ∧
      fresh'.length = fresh.length + steps.length +
        (steps.flatMap Step.operands).countP Operand.isLiteral := by
  induction steps generalizing temps fs s' fresh known with
  | nil => exact ⟨temps, s', fresh, known, rfl, h, htemps, hnew, rfl⟩
  | cons step rest ih =>
    obtain ⟨v, s₁, fresh₁, known₁, hdone, h₁, hsub, hv, hcount, hfresh⟩ :=
      h.emits_step htemps hsound.1
    have htemps₁ : TempsKnown (temps ++ [v]) (fs ++ [step.onWords fs]) known₁ := by
      refine ⟨by simp [htemps.1], fun k hk => ?_⟩
      rw [List.zip_append htemps.1] at hk
      rcases List.mem_append.1 hk with hk | hk
      · exact hsub k (htemps.2 k hk)
      · obtain rfl := List.mem_singleton.1 hk
        exact hv
    have hnew₁ : ∀ u ∈ temps ++ [v], s.values.size ≤ u.index := by
      intro u hu
      rcases List.mem_append.1 hu with hu | hu
      · exact hnew u hu
      · obtain rfl := List.mem_singleton.1 hu
        exact hfresh (by omega)
    have hsound₁ : Template.Sound (fs ++ [step.onWords fs]).length rest := by
      rw [List.length_append]
      exact hsound.2
    obtain ⟨temps', s₂, fresh₂, known₂, hdone₂, h₂, htemps₂, hnew₂, hcount₂⟩ :=
      ih h₁ htemps₁ hnew₁ hsound₁
    refine ⟨temps', s₂, fresh₂, known₂, ?_, h₂, htemps₂, hnew₂, ?_⟩
    · rw [Template.emitSteps, Edit.bind_done hdone]
      exact hdone₂
    · rw [hcount₂, hcount, List.flatMap_cons, List.countP_append, List.length_cons]
      omega

/-- **A well-shaped template is emitted** before the anchor for two known values of an integer type,
as one operation for each step and literal. The value that it gives is new, and running the emitted
operations computes the template there. -/
theorem Site.emit_eq_done (h : s.Site p anchor before after) {t : Template} (ht : t.WellShaped)
    (hx : s.Defines p before x) (hy : s.Defines p before y)
    (hxty : s.values[x.index]?.map (·.ty) = some (.int w))
    (hyty : s.values[y.index]?.map (·.ty) = some (.int w)) :
    ∃ v s' fresh known,
      t.emit x y (.int w) (Builder.start s (.before p.entry anchor)) =
        .done v ⟨s', .before p.entry anchor, fresh⟩ ∧
      s.Emission p anchor before after x y w s' fresh known ∧ (v, t.onWords) ∈ known ∧
      s.values.size ≤ v.index ∧ fresh.length = t.instructionCount := by
  obtain ⟨hne, hsound⟩ := t.wellShaped_iff.1 ht
  have htemps : TempsKnown [] [] [((x, fun a _ => a) : Known), (y, fun _ b => b)] :=
    ⟨rfl, fun k hk => nomatch hk⟩
  obtain ⟨temps, s', fresh, known, hdone, hemission, htemps, hnew, hcount⟩ :=
    (Emission.start h hx hy hxty hyty).emitSteps htemps (fun v hv => nomatch hv) hsound
  have hlength : 0 < temps.length := by
    rw [htemps.1, Template.length_stepsOnWords]
    have := List.length_pos_iff.2 hne
    omega
  obtain ⟨v, hv⟩ : ∃ v, temps.getLast? = some v :=
    ⟨_, List.getLast?_eq_some_getLast (List.length_pos_iff.1 hlength)⟩
  obtain ⟨f, hf⟩ : ∃ f, (Template.stepsOnWords t.steps []).getLast? = some f :=
    ⟨_, List.getLast?_eq_some_getLast (List.length_pos_iff.1 (htemps.1 ▸ hlength))⟩
  have hknown : (v, f) ∈ known := by
    refine htemps.2 _ (List.mem_iff_getElem?.2 ⟨temps.length - 1, ?_⟩)
    rw [List.getElem?_zip_eq_some, ← List.getLast?_eq_getElem?]
    refine ⟨hv, ?_⟩
    rw [htemps.1, ← List.getLast?_eq_getElem?]
    exact hf
  refine ⟨v, s', fresh, known, ?_, hemission, ?_, hnew v (List.mem_of_getLast? hv), ?_⟩
  · have hadopt : ∀ u, s.Defines p before u →
        (Edit.read fun b => b.adopt u : Edit Builder BuildError ValueId)
          ⟨s, .before p.entry anchor, []⟩ = .done u ⟨s, .before p.entry anchor, []⟩ := by
      intro u hu
      exact Edit.read_done (h.adopt hu [])
    rw [Template.emit, Builder.start, Edit.bind_done (hadopt x hx), Edit.bind_done (hadopt y hy),
      Edit.bind_done hdone, hv]
    rfl
  · rwa [Template.onWords, hf]
  · rw [hcount, Template.instructionCount, Template.literalCount]
    simp

end Store

end Mba
