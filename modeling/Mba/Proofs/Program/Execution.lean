import Mba.Program.Run
import Mba.Proofs.Program.Valid

/-!
# Runs of valid programs

The operations before the first `ret` turn one environment into another (`advance`). Behind the
operations `done`, an environment is *settled* when every value known there has a scalar of its type
and every operation of `done` would compute its result again: an operation that is listed twice
changes nothing when it is executed for the second time.

Results:
* `execute_append`: a list without a `ret` in its front is executed front first.
* `compute_rename`: an operation that reads equal scalars under other names computes the same.
* `compute_of_typeDefect?`: a well-typed operation on scalars of the right types computes a scalar
  of its result type, unless it divides by zero.
* `Settled.step`, `Settled.advance`: environments stay settled.
* `Settled.advance_outcome`: operations that flow stop at divisions by zero only.
* `settled_bindArguments`: arguments of the right types settle the inputs.
-/

namespace Mba

theorem Env.get_eq_ok_iff {env : Env} {v : ValueId} {x : Scalar} :
    env.get v = .ok x ↔ env.get? v.index = some x := by
  unfold Env.get
  cases env.get? v.index <;> simp [Attempt.fail]

theorem Env.get_set (env : Env) (v w : ValueId) (x : Scalar) :
    (env.set v x).get? w.index = if v = w then some x else env.get? w.index := by
  have h : v = w ↔ v.index = w.index := by
    cases v; cases w; simp
  simp only [Env.set, Table.get?_insert, h]

theorem Env.get_set_self (env : Env) (v : ValueId) (x : Scalar) :
    (env.set v x).get? v.index = some x :=
  (env.get_set v v x).trans (if_pos rfl)

theorem Env.get_set_of_ne (env : Env) {v : ValueId} (x : Scalar) {i : Nat} (h : i ≠ v.index) :
    (env.set v x).get? i = env.get? i :=
  (env.get_set v ⟨i⟩ x).trans (if_neg fun heq => h (congrArg ValueId.index heq).symm)

/-! ## Operators on scalars of the right types -/

theorem UnaryOp.apply?_of_accepts {op : UnaryOp} {x : Scalar} (h : op.accepts x.ty = true) :
    ∃ y, op.apply? x = some y ∧ y.ty = x.ty := by
  cases op <;> cases x <;> first | exact ⟨_, rfl, rfl⟩ | cases h

theorem BinaryOp.apply_of_accepts {op : BinaryOp} {x y : Scalar} (h : op.accepts x.ty = true)
    (hty : y.ty = x.ty) :
    (∃ z, op.apply x y = .value z ∧ z.ty = x.ty) ∨
      (op.apply x y = .divisionByZero ∧ (op = .div ∨ op = .rem) ∧ ∃ w, x.ty = .int w) := by
  cases x with
  | int w a =>
    cases y with
    | int w' b =>
      obtain rfl : w' = w := by simpa [Scalar.ty] using hty
      rw [apply, if_pos rfl]
      cases heval : op.eval a b w' with
      | some r => exact .inl ⟨_, rfl, rfl⟩
      | none => exact .inr ⟨rfl, ((eval_eq_none_iff op a b w').1 heval).1, w', rfl⟩
    | double y => cases hty
    | bool b => cases hty
  | double x =>
    cases y with
    | int w' b => cases hty
    | double y => cases op <;> first | exact .inl ⟨_, rfl, rfl⟩ | cases h
    | bool b => cases hty
  | bool a => cases op <;> cases h

theorem Comparison.apply?_of_ty_eq {test : Comparison} {x y : Scalar} (h : x.ty = y.ty) :
    ∃ b, test.apply? x y = some b := by
  cases x <;> cases y <;> simp [Scalar.ty] at h <;>
    first | exact ⟨_, if_pos h⟩ | exact ⟨_, rfl⟩

namespace Store

/-! ## Front and back of an execution -/

/-- The environment behind operations of which none is a `ret`. -/
def advance (s : Store) : List OpId → Env → Attempt EvalError Env
  | [], env => .ok env
  | o :: rest, env => do
    let d ← s.op o
    let x? ← compute o d env
    advance s rest (bindResult d env x?)

variable {s : Store} {p : Program}

theorem advance_cons {o : OpId} {d : Operation} (h : s.ops[o.index]? = some d) (rest : List OpId)
    (env : Env) : s.advance (o :: rest) env =
      (compute o d env >>= fun x? => s.advance rest (bindResult d env x?)) := by
  rw [advance, op_lift h]
  rfl

theorem advance_congr {s' : Store} {ops : List OpId}
    (h : ∀ o ∈ ops, s'.ops[o.index]? = s.ops[o.index]?) (env : Env) :
    s'.advance ops env = s.advance ops env := by
  induction ops generalizing env with
  | nil => rfl
  | cons o rest ih =>
    have hop : s'.op o = s.op o := by rw [op, op, h o List.mem_cons_self]
    rw [advance, advance, hop]
    simp only [ih fun o' ho' => h o' (List.mem_cons_of_mem _ ho')]

theorem execute_cons {o : OpId} {d : Operation} (h : s.ops[o.index]? = some d)
    (hret : d.opcode ≠ .ret) (rest : List OpId) (env : Env) : s.execute (o :: rest) env =
      (compute o d env >>= fun x? => s.execute rest (bindResult d env x?)) := by
  rw [execute, op_lift h]
  show (if d.opcode = .ret then _ else _) = _
  rw [if_neg hret]

theorem execute_ret {o : OpId} {d : Operation} (h : s.ops[o.index]? = some d)
    (hret : d.opcode = .ret) (rest : List OpId) (env : Env) :
    s.execute (o :: rest) env = d.operands.mapM env.get := by
  rw [execute, op_lift h]
  show (if d.opcode = .ret then _ else _) = _
  rw [if_pos hret]

theorem advance_append (front back : List OpId) (env : Env) :
    s.advance (front ++ back) env = (s.advance front env >>= s.advance back) := by
  induction front generalizing env with
  | nil => rfl
  | cons o rest ih =>
    simp only [List.cons_append, advance, bind_assoc, ih]

/-- **A list without a `ret` in its front is executed front first.** -/
theorem execute_append {front : List OpId}
    (h : ∀ o ∈ front, ∃ d, s.ops[o.index]? = some d ∧ d.opcode ≠ .ret) (back : List OpId)
    (env : Env) : s.execute (front ++ back) env = (s.advance front env >>= s.execute back) := by
  induction front generalizing env with
  | nil => rfl
  | cons o rest ih =>
    obtain ⟨d, hd, hret⟩ := h o List.mem_cons_self
    rw [List.cons_append, execute_cons hd hret, advance_cons hd, bind_assoc]
    congr 1
    funext x?
    exact ih (fun o' ho' => h o' (List.mem_cons_of_mem _ ho')) _

/-! ## One operation -/

theorem operandValue_rename {d : Operation} {ρ : ValueId → ValueId} {env env' : Env}
    (h : ∀ v ∈ d.operands, env.get v = env'.get (ρ v)) (slot : Nat) :
    operandValue d env slot = operandValue { d with operands := d.operands.map ρ } env' slot := by
  unfold operandValue
  rw [List.getElem?_map]
  cases hv : d.operands[slot]? with
  | none => rfl
  | some v => exact h v (List.mem_of_getElem? hv)

/-- **An operation that reads equal scalars under other names computes the same.** -/
theorem compute_rename (o : OpId) {d : Operation} {ρ : ValueId → ValueId} {env env' : Env}
    (h : ∀ v ∈ d.operands, env.get v = env'.get (ρ v)) :
    compute o d env = compute o { d with operands := d.operands.map ρ } env' := by
  simp only [compute, operandValue_rename h]

theorem compute_congr (o : OpId) {d : Operation} {env env' : Env}
    (h : ∀ v ∈ d.operands, env.get v = env'.get v) : compute o d env = compute o d env' := by
  have hid : ∀ v ∈ d.operands, env.get v = env'.get (id v) := h
  have := compute_rename o hid
  rwa [List.map_id] at this

/-! ## Types -/

/-- A value is known to an environment by a scalar of its type. -/
def Typed (s : Store) (env : Env) (v : ValueId) : Prop :=
  ∃ x, env.get? v.index = some x ∧ s.values[v.index]?.map (·.ty) = some x.ty

theorem operandValue_eq {d : Operation} {env : Env} {slot : Nat} {v : ValueId} {x : Scalar}
    (hv : d.operands[slot]? = some v) (hx : env.get? v.index = some x) :
    operandValue d env slot = .ok x := by
  rw [operandValue, hv]
  exact Env.get_eq_ok_iff.2 hx

/-- **A well-typed operation on scalars of the right types computes a scalar of its result type**,
unless it is an integer division or remainder by zero. -/
theorem compute_of_typeDefect? (o : OpId) {d : Operation} (htyped : s.typeDefect? d = none)
    (hret : d.opcode ≠ .ret) {env : Env} (henv : ∀ v ∈ d.operands, s.Typed env v) :
    (∃ x, compute o d env = .ok (some x) ∧ d.resultTy? = some x.ty) ∨
      (compute o d env = Attempt.fail (.divisionByZero o) ∧
        (d.opcode = .binary .div ∨ d.opcode = .binary .rem) ∧ ∃ w, d.resultTy? = some (.int w)) := by
  have htyping := typeDefect?_eq_none_iff_wellTyped.1 htyped
  obtain ⟨opcode, operands, resultTy?, result?, parent?⟩ := d
  cases htyping with
  | const bits w => exact .inl ⟨.int w (w.wrap bits), rfl, rfl⟩
  | fconst bits => exact .inl ⟨.double ⟨bits⟩, rfl, rfl⟩
  | @unary op v ty hv haccepts =>
    obtain ⟨x, hx, hty⟩ := henv v (by simp)
    obtain rfl : ty = x.ty := Option.some.inj (hv.symm.trans hty)
    obtain ⟨y, hy, hyty⟩ := UnaryOp.apply?_of_accepts haccepts
    refine .inl ⟨y, ?_, by rw [hyty]⟩
    have hvalue : operandValue ⟨.unary op, [v], some x.ty, result?, parent?⟩ env 0 = .ok x :=
      operandValue_eq rfl hx
    simp only [compute, hvalue, bind, Except.bind, hy]
  | @binary op v v' ty hv hv' haccepts =>
    obtain ⟨x, hx, hty⟩ := henv v (by simp)
    obtain ⟨y, hy, hty'⟩ := henv v' (by simp)
    obtain rfl : ty = x.ty := Option.some.inj (hv.symm.trans hty)
    have hsame : y.ty = x.ty := Option.some.inj (hty'.symm.trans hv')
    have hvalue : operandValue ⟨.binary op, [v, v'], some x.ty, result?, parent?⟩ env 0 = .ok x :=
      operandValue_eq rfl hx
    have hvalue' : operandValue ⟨.binary op, [v, v'], some x.ty, result?, parent?⟩ env 1 = .ok y :=
      operandValue_eq rfl hy
    rcases BinaryOp.apply_of_accepts haccepts hsame with ⟨z, hz, hzty⟩ | ⟨hzero, hdiv, w, hw⟩
    · refine .inl ⟨z, ?_, by rw [hzty]⟩
      simp only [compute, hvalue, hvalue', bind, Except.bind, hz]
    · refine .inr ⟨?_, ?_, w, congrArg some hw⟩
      · simp only [compute, hvalue, hvalue', bind, Except.bind, hzero]
      · rcases hdiv with rfl | rfl
        · exact .inl rfl
        · exact .inr rfl
  | @compare test v v' ty hv hv' =>
    obtain ⟨x, hx, hty⟩ := henv v (by simp)
    obtain ⟨y, hy, hty'⟩ := henv v' (by simp)
    have hsame : x.ty = y.ty := Option.some.inj ((hty.symm.trans hv).trans (hv'.symm.trans hty'))
    obtain ⟨b, hb⟩ : ∃ b, test.apply? x y = some b := Comparison.apply?_of_ty_eq hsame
    refine .inl ⟨.bool b, ?_, rfl⟩
    have hvalue : operandValue ⟨.compare test, [v, v'], some .bool, result?, parent?⟩ env 0 =
        .ok x := operandValue_eq rfl hx
    have hvalue' : operandValue ⟨.compare test, [v, v'], some .bool, result?, parent?⟩ env 1 =
        .ok y := operandValue_eq rfl hy
    simp only [compute, hvalue, hvalue', bind, Except.bind, hb]
  | ret hvs => exact absurd rfl hret

/-! ## Settled environments -/

/-- What is known behind the operations `done` has scalars, and these stay as they are when an
operation of `done` is executed again. -/
structure Settled (s : Store) (p : Program) (done : List OpId) (env : Env) : Prop where
  typed : ∀ v, s.Defines p done v → s.Typed env v
  computed : ∀ o ∈ done, ∀ d v, s.ops[o.index]? = some d → d.result? = some v →
    ∃ x, env.get? v.index = some x ∧ compute o d env = .ok (some x)

section

variable {done : List OpId} {d : Operation} {env : Env} {v : ValueId} {x : Scalar} {o : OpId}

/-- The values known before keep their scalars when an operation is executed: its result is new, or
is computed again. -/
theorem Settled.get_set (hs : s.Owned) (henv : s.Settled p done env) (hd : s.ops[o.index]? = some d)
    (hv : d.result? = some v) (hcompute : compute o d env = .ok (some x)) {w : ValueId}
    (hw : s.Defines p done w) : (env.set v x).get? w.index = env.get? w.index := by
  rw [Env.get_set]
  split
  · next heq =>
    subst heq
    by_cases ho : o ∈ done
    · obtain ⟨x', hx', hcompute'⟩ := henv.computed o ho d v hd hv
      rw [hcompute] at hcompute'
      cases hcompute'
      exact hx'.symm
    · exact absurd hw (not_defines_of_notMem hs ((result?_eq hd).trans hv) ho)
  · rfl

/-- **The result of an operation that fits** keeps an environment settled. -/
theorem Settled.set (hs : s.Owned) (henv : s.Settled p done env) (hflow : s.Flow p [] done)
    (hd : s.ops[o.index]? = some d) (hfits : s.Fits p done d) (hv : d.result? = some v)
    (hcompute : compute o d env = .ok (some x)) (hty : d.resultTy? = some x.ty) :
    s.Settled p (done ++ [o]) (env.set v x) := by
  have hresult : s.result? o = some v := (result?_eq hd).trans hv
  have hkeep := fun w => henv.get_set hs hd hv hcompute (w := w)
  have hcongr : ∀ o' d', s.Fits p done d' → compute o' d' (env.set v x) = compute o' d' env := by
    intro o' d' hfits'
    refine compute_congr o' fun w hw => ?_
    rw [Env.get, Env.get, hkeep w (hfits'.operands w hw)]
  constructor
  case typed =>
    intro w hw
    rcases defines_append_singleton.1 hw with hold | hnew
    · obtain ⟨x', hx', hty'⟩ := henv.typed w hold
      exact ⟨x', by rw [hkeep w hold, hx'], hty'⟩
    · rw [hresult] at hnew
      obtain rfl := Option.some.inj hnew
      obtain ⟨ty, hresultTy, hvalue⟩ := hs.result_origin o v hresult
      rw [resultTy?_eq hd, hty] at hresultTy
      cases hresultTy
      exact ⟨x, env.get_set_self v x, congrArg (Option.map (·.ty)) hvalue⟩
  case computed =>
    intro o' ho' d' v' hd' hv'
    rcases List.mem_append.1 ho' with hold | hnew
    · obtain ⟨x', hx', hcompute'⟩ := henv.computed o' hold d' v' hd' hv'
      have hdefines : s.Defines p done v' := .inr ⟨o', hold, by rw [result?_eq hd', hv']⟩
      obtain ⟨d'', hd'', hfits'⟩ := hflow.fits hold
      rw [hd'] at hd''
      cases hd''
      rw [List.nil_append] at hfits'
      exact ⟨x', by rw [hkeep v' hdefines, hx'], by rw [hcongr o' d' hfits', hcompute']⟩
    · obtain rfl := List.mem_singleton.1 hnew
      rw [hd] at hd'
      cases hd'
      rw [hv] at hv'
      cases hv'
      exact ⟨x, env.get_set_self v x, by rw [hcongr _ d hfits, hcompute]⟩

/-- **Executing an operation that fits keeps an environment settled**, unless it stops at a division
by zero. -/
theorem Settled.step (hs : s.Owned) (hflow : s.Flow p [] done) (hd : s.ops[o.index]? = some d)
    (hfits : s.Fits p done d) (hret : d.opcode ≠ .ret) (henv : s.Settled p done env) :
    (∃ v x, d.result? = some v ∧ compute o d env = .ok (some x) ∧
        s.Settled p (done ++ [o]) (env.set v x)) ∨
      (compute o d env = Attempt.fail (.divisionByZero o) ∧
        (d.opcode = .binary .div ∨ d.opcode = .binary .rem) ∧ ∃ w, d.resultTy? = some (.int w)) := by
  rcases compute_of_typeDefect? o hfits.typed hret fun v hv => henv.typed v (hfits.operands v hv)
    with ⟨x, hx, hty⟩ | hzero
  · have hsome := hs.result_isSome o
    rw [result?_eq hd, resultTy?_eq hd, hty] at hsome
    obtain ⟨v, hv⟩ := Option.isSome_iff_exists.1 hsome
    exact .inl ⟨v, x, hv, hx, henv.set hs hflow hd hfits hv hx hty⟩
  · exact .inr hzero

/-- An operation that has computed a scalar keeps an environment settled. -/
theorem Settled.of_compute (hs : s.Owned) (hflow : s.Flow p [] done)
    (hd : s.ops[o.index]? = some d) (hfits : s.Fits p done d) (hret : d.opcode ≠ .ret)
    (henv : s.Settled p done env) (hv : d.result? = some v)
    (hcompute : compute o d env = .ok (some x)) : s.Settled p (done ++ [o]) (env.set v x) := by
  rcases henv.step hs hflow hd hfits hret with ⟨v', x', hv', hcompute', hsettled⟩ | ⟨hzero, -⟩
  · rw [hv] at hv'
    cases hv'
    rw [hcompute] at hcompute'
    cases hcompute'
    exact hsettled
  · rw [hcompute] at hzero
    cases hzero

end

/-- The operation divides integers, or takes a remainder. -/
def DividesIntegers (s : Store) (o : OpId) : Prop :=
  ∃ d w, s.ops[o.index]? = some d ∧ (d.opcode = .binary .div ∨ d.opcode = .binary .rem) ∧
    d.resultTy? = some (.int w)

/-- **Executing operations that flow settles an environment or stops at a division by zero.** -/
theorem Settled.advance_outcome (hs : s.Owned) {ops done : List OpId}
    (hflow : s.Flow p [] (done ++ ops)) (hret : ∀ o ∈ ops, s.opcode? o ≠ some .ret) {env : Env}
    (henv : s.Settled p done env) :
    (∃ env', s.advance ops env = .ok env' ∧ s.Settled p (done ++ ops) env') ∨
      ∃ o ∈ ops, s.advance ops env = Attempt.fail (.divisionByZero o) ∧ s.DividesIntegers o := by
  induction ops generalizing done env with
  | nil => exact .inl ⟨env, rfl, by rwa [List.append_nil]⟩
  | cons o rest ih =>
    obtain ⟨hdone, ⟨d, hd, hfits⟩, -⟩ := flow_append.1 hflow
    have hopcode : d.opcode ≠ .ret := by
      have := hret o List.mem_cons_self
      rwa [opcode?, hd, Option.map_some, ne_eq, Option.some.injEq] at this
    rw [advance_cons hd]
    rcases henv.step hs hdone hd hfits hopcode with ⟨v, x, hv, hx, hset⟩ | ⟨hzero, hdiv, w, hw⟩
    · rw [hx]
      show (∃ env', s.advance rest (bindResult d env (some x)) = .ok env' ∧ _) ∨
        ∃ o' ∈ o :: rest, s.advance rest (bindResult d env (some x)) = _ ∧ _
      rw [bindResult, hv]
      have hsplit : done ++ o :: rest = done ++ [o] ++ rest := by simp
      rw [hsplit] at hflow ⊢
      rcases ih hflow (fun o' ho' => hret o' (List.mem_cons_of_mem _ ho')) hset with
        hok | ⟨o', ho', hfail⟩
      · exact .inl hok
      · exact .inr ⟨o', List.mem_cons_of_mem _ ho', hfail⟩
    · refine .inr ⟨o, List.mem_cons_self, ?_, d, w, hd, hdiv, hw⟩
      rw [hzero]
      rfl

/-- **Executing operations that flow keeps an environment settled.** -/
theorem Settled.advance (hs : s.Owned) {ops done : List OpId} (hflow : s.Flow p [] (done ++ ops))
    (hret : ∀ o ∈ ops, s.opcode? o ≠ some .ret) {env env' : Env} (henv : s.Settled p done env)
    (h : s.advance ops env = .ok env') : s.Settled p (done ++ ops) env' := by
  rcases henv.advance_outcome hs hflow hret with ⟨env'', hok, hset⟩ | ⟨o, -, hfail, -⟩
  · rw [hok] at h
    cases h
    exact hset
  · rw [hfail] at h
    cases h

/-! ## Arguments -/

theorem bindArguments_congr {s' : Store} {pairs : List (ValueId × Scalar)}
    (h : ∀ v ∈ pairs.map (·.1), s'.valueTy v = s.valueTy v) (index : Nat) (env : Env) :
    s'.bindArguments pairs index env = s.bindArguments pairs index env := by
  induction pairs generalizing index env with
  | nil => rfl
  | cons pair rest ih =>
    obtain ⟨input, arg⟩ := pair
    rw [bindArguments, bindArguments, h input List.mem_cons_self]
    simp only [ih fun v hv => h v (List.mem_cons_of_mem _ hv)]

/-- The inputs have the types that are listed for them. -/
theorem Owned.valueTy_input (hs : s.Owned) {b : BlockId} {k : Nat} {v : ValueId} {ty : Ty}
    (hv : (s.args b)[k]? = some v) (hty : (s.argTys b)[k]? = some ty) : s.valueTy v = .ok ty := by
  obtain ⟨ty', hty', hvalue⟩ := hs.arg_origin b k v hv
  rw [hty] at hty'
  cases hty'
  rw [valueTy_eq_ok_iff, hvalue]
  rfl

theorem Owned.valueTys_args (hs : s.Owned) (b : BlockId) :
    (s.args b).map s.valueTy = (s.argTys b).map .ok := by
  refine List.ext_getElem? fun k => ?_
  rw [List.getElem?_map, List.getElem?_map]
  cases hv : (s.args b)[k]? with
  | none =>
    have hle := List.getElem?_eq_none_iff.1 hv
    rw [hs.length_args] at hle
    rw [List.getElem?_eq_none_iff.2 hle]
    rfl
  | some v =>
    obtain ⟨ty, hty, -⟩ := hs.arg_origin b k v hv
    rw [hty]
    exact congrArg some (hs.valueTy_input hv hty)

/-- Bound arguments are of the types of their inputs. -/
theorem typed_of_bindArguments {pairs : List (ValueId × Scalar)} {index : Nat} {env env' : Env}
    (h : s.bindArguments pairs index env = .ok env') {v : ValueId}
    (hv : v ∈ pairs.map (·.1) ∨ s.Typed env v) : s.Typed env' v := by
  induction pairs generalizing index env with
  | nil =>
    cases h
    exact hv.resolve_left List.not_mem_nil
  | cons pair rest ih =>
    obtain ⟨input, arg⟩ := pair
    rw [bindArguments] at h
    obtain ⟨expected, hexpected, h⟩ := bind_eq_ok.1 h
    have hinput := valueTy_eq_ok_iff.1 (lift_eq_ok.1 hexpected)
    split at h
    · cases h
    · next hty =>
      have hset : s.Typed (env.set input arg) input :=
        ⟨arg, env.get_set_self input arg, by rw [hinput, Decidable.not_not.1 hty]⟩
      refine ih h ?_
      rcases hv with hmem | htyped
      · rcases List.mem_cons.1 hmem with rfl | hmem
        · exact .inr hset
        · exact .inl hmem
      · by_cases hv : input = v
        · exact .inr (hv ▸ hset)
        · obtain ⟨x, hx, htyx⟩ := htyped
          exact .inr ⟨x, by rw [Env.get_set, if_neg hv, hx], htyx⟩

/-- **Arguments of the right types settle the inputs.** -/
theorem settled_bindArguments {args : List Scalar} (hlength : (p.inputs s).length = args.length)
    {env : Env} (h : s.bindArguments ((p.inputs s).zip args) 0 Table.empty = .ok env) :
    s.Settled p [] env where
  typed v hv := by
    refine typed_of_bindArguments h (.inl ?_)
    rw [List.map_fst_zip (Nat.le_of_eq hlength)]
    exact hv.resolve_right fun ⟨o, ho, _⟩ => List.not_mem_nil ho
  computed o ho := absurd ho List.not_mem_nil

end Store

end Mba
