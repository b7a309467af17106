import Mathlib.Data.List.Forall2
import Mba.Program.Print
import Mba.Proofs.Decimal
import Mba.Proofs.Program.Execution

/-!
# Copies of programs

A program is a copy of another one when both have the same form: the same operations in the same
order, which read the same numbers where values are numbered in the order of their definitions. A
copy is what reading the text of a program back gives: an integer constant is copied by its signed
reading, which the bits above its width do not change, and a double by its canonical form.

Results:
* `Agrees.assign`: environments that agree along numberings in step still do when the next number is
  given away.
* `compute_copy`: a copied operation computes the same scalar, or divides by zero where the
  operation does.
* `Copies.execute`, `bindArguments_copy`: so do lists of operations, from arguments that are bound
  in the same way.
* `CopyOf.run`: where no double constant is a NaN, a copy gives the same outputs on arguments of the
  right types, or divides by zero too.
-/

namespace Mba

namespace Numbering

/-- The number of a value. -/
def number? (n : Numbering) (v : ValueId) : Option Nat :=
  n.numbers.get? v.index

/-- The numbering behind an operation. -/
def after (n : Numbering) (d : Operation) : Numbering :=
  match d.result? with
  | some v => n.assign v
  | none => n

/-- The numbering in which values have the next numbers in order. -/
def assignAll (n : Numbering) (vs : List ValueId) : Numbering :=
  vs.foldl assign n

/-- No number from the next one on is given away. -/
def Bounded (n : Numbering) : Prop :=
  ∀ v i, n.number? v = some i → i < n.next

variable {n : Numbering}

theorem number?_assign (n : Numbering) (v w : ValueId) :
    (n.assign v).number? w = if v = w then some n.next else n.number? w := by
  have h : v = w ↔ v.index = w.index := by
    cases v; cases w; simp
  simp only [number?, assign, Table.get?_insert, h]

theorem number?_start (v : ValueId) : start.number? v = none :=
  Table.get?_empty v.index

theorem bounded_start : start.Bounded := by
  intro v i h
  rw [number?_start] at h
  cases h

/-- Values that are numbered have numbers, and so do those that had one. -/
theorem exists_number?_assignAll (vs : List ValueId) {n : Numbering} {v : ValueId}
    (h : v ∈ vs ∨ ∃ i, n.number? v = some i) : ∃ i, (n.assignAll vs).number? v = some i := by
  induction vs generalizing n with
  | nil => exact h.resolve_left List.not_mem_nil
  | cons w vs ih =>
    refine ih ?_
    rw [n.number?_assign]
    rcases h with hmem | ⟨i, hi⟩
    · rcases List.mem_cons.1 hmem with rfl | hmem
      · exact .inr ⟨_, if_pos rfl⟩
      · exact .inl hmem
    · split
      · exact .inr ⟨_, rfl⟩
      · exact .inr ⟨i, hi⟩

/-- Values that get a number are among those that are numbered. -/
theorem mem_of_number?_assignAll {n : Numbering} {vs : List ValueId} {v : ValueId} {i : Nat}
    (h : (n.assignAll vs).number? v = some i) : v ∈ vs ∨ n.number? v = some i := by
  induction vs generalizing n with
  | nil => exact .inr h
  | cons w vs ih =>
    rcases ih h with hmem | hold
    · exact .inl (List.mem_cons_of_mem _ hmem)
    · rw [n.number?_assign] at hold
      split at hold
      · next heq => exact .inl (heq ▸ List.mem_cons_self)
      · exact .inr hold

/-- A value with a number behind an operation is its result, or had the number before. -/
theorem number?_after {n : Numbering} {d : Operation} {v : ValueId} {i : Nat}
    (h : (n.after d).number? v = some i) : d.result? = some v ∨ n.number? v = some i := by
  rw [after] at h
  cases hv : d.result? with
  | none =>
    rw [hv] at h
    exact .inr h
  | some w =>
    rw [hv] at h
    dsimp only at h
    rw [n.number?_assign] at h
    split at h
    · next heq => exact .inl (congrArg some heq)
    · exact .inr h

theorem Bounded.assign (h : n.Bounded) (v : ValueId) : (n.assign v).Bounded := by
  intro w i hw
  rw [number?_assign] at hw
  show i < n.next + 1
  split at hw
  · cases hw
    exact Nat.lt_succ_self _
  · exact Nat.lt_succ_of_lt (h w i hw)

/-- Two numberings have given away as many numbers. -/
structure InStep (n n' : Numbering) : Prop where
  next : n'.next = n.next
  bounded : n.Bounded
  bounded' : n'.Bounded

variable {n' : Numbering}

theorem inStep_start : start.InStep start := ⟨rfl, bounded_start, bounded_start⟩

theorem InStep.assign (h : n.InStep n') (v v' : ValueId) : (n.assign v).InStep (n'.assign v') :=
  ⟨congrArg (· + 1) h.next, h.bounded.assign v, h.bounded'.assign v'⟩

theorem InStep.assignAll (h : n.InStep n') {vs vs' : List ValueId}
    (hlength : vs.length = vs'.length) :
    (n.assignAll vs).InStep (n'.assignAll vs') := by
  induction vs generalizing n n' vs' with
  | nil =>
    obtain rfl := List.length_eq_zero_iff.1 hlength.symm
    exact h
  | cons v vs ih =>
    cases vs' with
    | nil => cases hlength
    | cons v' vs' => exact ih (h.assign v v') (Nat.succ.inj hlength)

/-- Values with one number in numberings in step have just got it, both of them, or had it
before. -/
theorem InStep.number?_assign (h : n.InStep n') {v v' w w' : ValueId} {i : Nat}
    (hw : (n.assign v).number? w = some i) (hw' : (n'.assign v').number? w' = some i) :
    (v = w ∧ v' = w') ∨
      (v ≠ w ∧ v' ≠ w' ∧ n.number? w = some i ∧ n'.number? w' = some i) := by
  rw [Numbering.number?_assign] at hw hw'
  split at hw <;> split at hw'
  · next heq heq' => exact .inl ⟨heq, heq'⟩
  · cases hw
    have := h.bounded' w' _ hw'
    have := h.next
    omega
  · cases hw'
    have := h.bounded w _ hw
    have := h.next
    omega
  · next hne hne' => exact .inr ⟨hne, hne', hw, hw'⟩

/-- Values with one number are related. -/
def Relates (n n' : Numbering) (R : ValueId → ValueId → Prop) : Prop :=
  ∀ v v' i, n.number? v = some i → n'.number? v' = some i → R v v'

section Relates

variable {R : ValueId → ValueId → Prop}

theorem relates_start : start.Relates start R := by
  intro v v' i h
  rw [number?_start] at h
  cases h

/-- Values with one number are still related when the next number is given away, to values that are
related. -/
theorem Relates.assign (h : n.Relates n' R) (hn : n.InStep n') {v v' : ValueId} (hnew : R v v') :
    (n.assign v).Relates (n'.assign v') R := by
  intro w w' i hw hw'
  rcases hn.number?_assign hw hw' with ⟨rfl, rfl⟩ | ⟨-, -, hold, hold'⟩
  · exact hnew
  · exact h w w' i hold hold'

theorem Relates.assignAll (h : n.Relates n' R) (hn : n.InStep n') {vs vs' : List ValueId}
    (hnew : List.Forall₂ R vs vs') : (n.assignAll vs).Relates (n'.assignAll vs') R := by
  induction hnew generalizing n n' with
  | nil => exact h
  | @cons v v' vs vs' hnew _ ih => exact ih (h.assign hn hnew) (hn.assign v v')

end Relates

/-- The environments have the same scalars for values with one number. -/
def Agrees (n n' : Numbering) (env env' : Env) : Prop :=
  ∀ v v' i, n.number? v = some i → n'.number? v' = some i → env.get? v.index = env'.get? v'.index

theorem agrees_start (env env' : Env) : start.Agrees start env env' := by
  intro v v' i h
  rw [number?_start] at h
  cases h

/-- **Environments that agree still do when the next number is given away**, to values that get the
same scalar. -/
theorem Agrees.assign {env env' : Env} (h : n.Agrees n' env env') (hn : n.InStep n')
    (v v' : ValueId) (x : Scalar) :
    (n.assign v).Agrees (n'.assign v') (env.set v x) (env'.set v' x) := by
  intro w w' i hw hw'
  rw [Env.get_set, Env.get_set]
  rcases hn.number?_assign hw hw' with ⟨heq, heq'⟩ | ⟨hne, hne', hold, hold'⟩
  · rw [if_pos heq, if_pos heq']
  · rw [if_neg hne, if_neg hne', h w w' i hold hold']

theorem Agrees.get {env env' : Env} (h : n.Agrees n' env env') {v v' : ValueId} {i : Nat}
    (hi : n.number? v = some i) (hi' : n'.number? v' = some i) {x : Scalar}
    (hx : env.get? v.index = some x) : env'.get v' = .ok x :=
  Env.get_eq_ok_iff.2 ((h v v' i hi hi').symm.trans hx)

end Numbering

/-! ## Copied operations -/

/-- The opcode as it is written and read back. -/
def Opcode.reread (resultTy? : Option Ty) : Opcode → Opcode
  | .const bits =>
    match resultTy?.bind Ty.width? with
    | some w => .const (w.ofInt (w.signed bits))
    | none => .const bits
  | .fconst bits => .fconst (Double.canonical ⟨bits⟩).bits
  | .unary op => .unary op
  | .binary op => .binary op
  | .compare test => .compare test
  | .ret => .ret

/-- The second operation is what the first one is read back as, whatever values the two read and
define. -/
structure Operation.RereadAs (d d' : Operation) : Prop where
  opcode : d'.opcode = d.opcode.reread d.resultTy?
  resultTy? : d'.resultTy? = d.resultTy?
  result? : d'.result?.isSome = d.result?.isSome

theorem Numbering.InStep.after {n n' : Numbering} (h : n.InStep n') {d d' : Operation}
    (hreread : d.RereadAs d') : (n.after d).InStep (n'.after d') := by
  have := hreread.result?
  rw [Numbering.after, Numbering.after]
  cases hv : d.result? <;> cases hv' : d'.result? <;> simp [hv, hv'] at this ⊢
  · exact h
  · exact h.assign _ _

theorem Numbering.Relates.after {n n' : Numbering} {R : ValueId → ValueId → Prop}
    (h : n.Relates n' R) (hn : n.InStep n') {d d' : Operation} (hreread : d.RereadAs d')
    (hnew : ∀ v v', d.result? = some v → d'.result? = some v' → R v v') :
    (n.after d).Relates (n'.after d') R := by
  have hsome := hreread.result?
  rw [Numbering.after, Numbering.after]
  cases hv : d.result? <;> cases hv' : d'.result? <;> simp [hv, hv'] at hsome ⊢
  · exact h
  · exact h.assign hn (hnew _ _ hv hv')

theorem Opcode.reread_eq_ret_iff {resultTy? : Option Ty} {opcode : Opcode} :
    opcode.reread resultTy? = .ret ↔ opcode = .ret := by
  unfold reread
  cases opcode <;> simp
  split <;> simp

/-- An integer is written as its bits within the width. -/
theorem Width.ofInt_signed (w : Width) (word : UInt64) : w.ofInt (w.signed word) = w.wrap word := by
  apply UInt64.toNat_inj.1
  have h := w.toNat_ofInt (w.signed word)
  have hmod :
      w.signed word % ((2 ^ w.bits : Nat) : Int) = (word.toNat : Int) % (2 ^ w.bits : Nat) := by
    rw [signed_eq_bmod, Int.bmod_emod]
  rw [toNat_wrap]
  have hcast : ((2 : Int) ^ w.bits) = ((2 ^ w.bits : Nat) : Int) := by simp
  rw [hcast, hmod] at h
  exact_mod_cast h

namespace Store

variable {n n' : Numbering} {d d' : Operation} {operands : List Nat} {env env' : Env}

/-- No double constant is a NaN. -/
def NaNFree (s : Store) : Prop :=
  ∀ d ∈ s.ops, ∀ bits, d.opcode = .fconst bits → (Double.mk bits).isNaN = false

/-- The operands of an operation have these numbers, in order. -/
def Numbers (n : Numbering) (vs : List ValueId) (operands : List Nat) : Prop :=
  vs.map n.number? = operands.map some

theorem Numbers.getElem? {vs : List ValueId} (h : Numbers n vs operands) (slot : Nat) :
    (vs[slot]?).map n.number? = (operands[slot]?).map some := by
  rw [← List.getElem?_map, ← List.getElem?_map, h]

theorem numbers_nil (h : Numbers n [] operands) : operands = [] := by
  cases operands with
  | nil => rfl
  | cons i operands => cases h

theorem numbers_cons {v : ValueId} {vs : List ValueId} (h : Numbers n (v :: vs) operands) :
    ∃ i more, operands = i :: more ∧ n.number? v = some i ∧ Numbers n vs more := by
  cases operands with
  | nil => cases h
  | cons i more => exact ⟨i, more, rfl, (List.cons.inj h).1, (List.cons.inj h).2⟩

theorem Numbers.eq_nil {vs : List ValueId} (h : Numbers n vs []) : vs = [] :=
  List.map_eq_nil_iff.1 h

theorem Numbers.eq_cons {vs : List ValueId} {i : Nat} (h : Numbers n vs (i :: operands)) :
    ∃ v more, vs = v :: more ∧ n.number? v = some i ∧ Numbers n more operands := by
  cases vs with
  | nil => cases h
  | cons v more => exact ⟨v, more, rfl, (List.cons.inj h).1, (List.cons.inj h).2⟩

/-- Operands with the same numbers are related, each to the one at its place. -/
theorem Numbers.forall₂ {R : ValueId → ValueId → Prop} (h : n.Relates n' R) {vs vs' : List ValueId}
    (hnumbers : Numbers n vs operands) (hnumbers' : Numbers n' vs' operands) :
    List.Forall₂ R vs vs' := by
  induction operands generalizing vs vs' with
  | nil =>
    rw [hnumbers.eq_nil, hnumbers'.eq_nil]
    exact .nil
  | cons i operands ih =>
    obtain ⟨v, vs, rfl, hi, hmore⟩ := hnumbers.eq_cons
    obtain ⟨v', vs', rfl, hi', hmore'⟩ := hnumbers'.eq_cons
    exact .cons (h v v' i hi hi') (ih hmore hmore')

/-- A copied operation reads the scalars that the operation reads. -/
theorem operandValue_copy (hagree : n.Agrees n' env env') (hnumbers : Numbers n d.operands operands)
    (hnumbers' : Numbers n' d'.operands operands)
    (hknown : ∀ v ∈ d.operands, ∃ x, env.get? v.index = some x) (slot : Nat) :
    operandValue d' env' slot = operandValue d env slot := by
  have hslot := hnumbers.getElem? slot
  have hslot' := hnumbers'.getElem? slot
  cases hi : operands[slot]? with
  | none =>
    rw [hi, Option.map_none, Option.map_eq_none_iff] at hslot hslot'
    rw [operandValue, operandValue, hslot, hslot']
  | some i =>
    rw [hi, Option.map_some] at hslot hslot'
    obtain ⟨v, hv, hnumber⟩ := Option.map_eq_some_iff.1 hslot
    obtain ⟨v', hv', hnumber'⟩ := Option.map_eq_some_iff.1 hslot'
    obtain ⟨x, hx⟩ := hknown v (List.mem_of_getElem? hv)
    rw [operandValue, operandValue, hv, hv']
    exact (hagree.get hnumber hnumber' hx).trans (Env.get_eq_ok_iff.2 hx).symm

theorem compute_copy_eq (o : OpId) (hreread : d.RereadAs d')
    (hnan : ∀ bits, d.opcode = .fconst bits → (Double.mk bits).isNaN = false)
    (hread : ∀ slot, operandValue d' env' slot = operandValue d env slot) :
    compute o d' env' = compute o d env := by
  unfold compute
  rw [hreread.opcode, hreread.resultTy?]
  cases hop : d.opcode with
  | const bits =>
    cases hw : d.resultTy?.bind Ty.width? with
    | none => simp only [Opcode.reread, hw]
    | some w => simp only [Opcode.reread, hw, w.ofInt_signed, w.wrap_wrap]
  | fconst bits => simp only [Opcode.reread, Double.canonical_eq_self (hnan bits hop)]
  | unary op => simp only [Opcode.reread, hread]
  | binary op => simp only [Opcode.reread, hread]
  | compare test => simp only [Opcode.reread, hread]
  | ret => rfl

/-! ## Runs that end in the same way -/

/-- Both computations give the same answer, or both stop at a division by zero. -/
inductive SameEnd {α : Type} : Attempt EvalError α → Attempt EvalError α → Prop
  | ok (a : α) : SameEnd (.ok a) (.ok a)
  | divisionByZero (o o' : OpId) :
      SameEnd (Attempt.fail (.divisionByZero o)) (Attempt.fail (.divisionByZero o'))

theorem SameEnd.bind {α β : Type} {m m' : Attempt EvalError α}
    {next next' : α → Attempt EvalError β} (h : SameEnd m m')
    (hnext : ∀ a, m = .ok a → SameEnd (next a) (next' a)) :
    SameEnd (m >>= next) (m' >>= next') := by
  cases h with
  | ok a => exact hnext a rfl
  | divisionByZero o o' => exact .divisionByZero o o'

/-- The computation with the errors of an operation reported at `o`. -/
def reportAt {α : Type} (o : OpId) : Attempt EvalError α → Attempt EvalError α
  | .error (.error (.divisionByZero _)) => Attempt.fail (.divisionByZero o)
  | .error (.error (.typeMismatch _)) => Attempt.fail (.typeMismatch o)
  | a => a

theorem reportAt_bind {α β : Type} (o : OpId) (m : Attempt EvalError α)
    (next : α → Attempt EvalError β) :
    reportAt o (m >>= next) = reportAt o m >>= fun a => reportAt o (next a) := by
  rcases m with (_ | ⟨_ | _⟩) | _ <;> rfl

theorem reportAt_operandValue (o : OpId) (d : Operation) (env : Env) (slot : Nat) :
    reportAt o (operandValue d env slot) = operandValue d env slot := by
  unfold operandValue Env.get
  split
  · split <;> rfl
  · rfl

/-- An operation under another number reports its errors there. -/
theorem compute_reportAt (o o' : OpId) (d : Operation) (env : Env) :
    compute o' d env = reportAt o' (compute o d env) := by
  unfold compute
  cases d.opcode with
  | const bits => cases d.resultTy?.bind Ty.width? <;> rfl
  | fconst bits => rfl
  | unary op =>
    dsimp only
    rw [reportAt_bind, reportAt_operandValue]
    refine congrArg _ (funext fun x => ?_)
    cases op.apply? x <;> rfl
  | binary op =>
    dsimp only
    rw [reportAt_bind, reportAt_operandValue]
    refine congrArg _ (funext fun x => ?_)
    rw [reportAt_bind, reportAt_operandValue]
    refine congrArg _ (funext fun y => ?_)
    cases op.apply x y <;> rfl
  | compare test =>
    dsimp only
    rw [reportAt_bind, reportAt_operandValue]
    refine congrArg _ (funext fun x => ?_)
    rw [reportAt_bind, reportAt_operandValue]
    refine congrArg _ (funext fun y => ?_)
    cases test.apply? x y <;> rfl
  | ret => rfl

variable {s s' : Store} {p p' : Program}

/-- **A copied operation computes the same scalar**, or divides by zero where the operation does. -/
theorem compute_copy (o o' : OpId) (htyped : s.typeDefect? d = none) (hret : d.opcode ≠ .ret)
    (hreread : d.RereadAs d')
    (hnan : ∀ bits, d.opcode = .fconst bits → (Double.mk bits).isNaN = false)
    (henv : ∀ v ∈ d.operands, s.Typed env v) (hagree : n.Agrees n' env env')
    (hnumbers : Numbers n d.operands operands) (hnumbers' : Numbers n' d'.operands operands) :
    SameEnd (compute o d env) (compute o' d' env') := by
  have hknown : ∀ v ∈ d.operands, ∃ x, env.get? v.index = some x := fun v hv =>
    (henv v hv).imp fun _ h => h.1
  rw [compute_copy_eq o' hreread hnan (operandValue_copy hagree hnumbers hnumbers' hknown),
    compute_reportAt o o']
  rcases compute_of_typeDefect? o htyped hret henv with ⟨x, hx, -⟩ | ⟨hzero, -⟩
  · rw [hx]
    exact .ok _
  · rw [hzero]
    exact .divisionByZero o o'

/-! ## Copied lists of operations -/

/-- The second operations copy the first ones, along numberings that give each result the next
number. -/
inductive Copies (s s' : Store) : Numbering → Numbering → List OpId → List OpId → Prop
  | nil (n n' : Numbering) : Copies s s' n n' [] []
  | cons {n n' : Numbering} {o o' : OpId} {rest rest' : List OpId} {d d' : Operation}
      {operands : List Nat} (entry : s.ops[o.index]? = some d)
      (entry' : s'.ops[o'.index]? = some d') (reread : d.RereadAs d')
      (numbers : Numbers n d.operands operands) (numbers' : Numbers n' d'.operands operands)
      (more : Copies s s' (n.after d) (n'.after d') rest rest') :
      Copies s s' n n' (o :: rest) (o' :: rest')

/-- The outputs of a copied `ret`. -/
theorem mapM_get_copy (hagree : n.Agrees n' env env') :
    ∀ {vs vs' : List ValueId} {operands : List Nat}, Numbers n vs operands →
      Numbers n' vs' operands → (∀ v ∈ vs, ∃ x, env.get? v.index = some x) →
      SameEnd (vs.mapM env.get) (vs'.mapM env'.get)
  | vs, vs', [], hnumbers, hnumbers', _ => by
    rw [hnumbers.eq_nil, hnumbers'.eq_nil]
    exact .ok []
  | vs, vs', i :: operands, hnumbers, hnumbers', hknown => by
    obtain ⟨v, more, rfl, hi, hmore⟩ := hnumbers.eq_cons
    obtain ⟨v', more', rfl, hi', hmore'⟩ := hnumbers'.eq_cons
    obtain ⟨x, hx⟩ := hknown v List.mem_cons_self
    rw [List.mapM_cons, List.mapM_cons, Env.get_eq_ok_iff.2 hx, hagree.get hi hi' hx]
    refine SameEnd.bind (.ok x) fun x _ => ?_
    refine SameEnd.bind (mapM_get_copy hagree hmore hmore' fun u hu =>
      hknown u (List.mem_cons_of_mem _ hu)) fun xs _ => ?_
    exact .ok _

/-- **Copied operations end in the same way** as the operations, from environments that agree. -/
theorem Copies.execute (hs : s.Owned) (hnan : s.NaNFree) {ops ops' done : List OpId}
    (h : Copies s s' n n' ops ops') (hn : n.InStep n') (hflow : s.Flow p [] (done ++ ops))
    (hret : ∃ o ∈ ops, s.opcode? o = some .ret) (henv : s.Settled p done env)
    (hagree : n.Agrees n' env env') : SameEnd (s.execute ops env) (s'.execute ops' env') := by
  induction h generalizing done env env' with
  | nil n n' =>
    obtain ⟨o, ho, -⟩ := hret
    cases ho
  | @cons n n' o o' rest rest' d d' operands entry entry' reread numbers numbers' more ih =>
    obtain ⟨hdone, ⟨d₁, hd, hfits⟩, -⟩ := flow_append.1 hflow
    obtain rfl : d = d₁ := Option.some.inj (entry.symm.trans hd)
    rw [List.nil_append] at hfits
    have htyped : ∀ v ∈ d.operands, s.Typed env v := fun v hv =>
      henv.typed v (hfits.operands v hv)
    have hopcode' : d'.opcode = .ret ↔ d.opcode = .ret := by
      rw [reread.opcode, Opcode.reread_eq_ret_iff]
    by_cases hopcode : d.opcode = .ret
    · rw [execute_ret entry hopcode, execute_ret entry' (hopcode'.2 hopcode)]
      exact mapM_get_copy hagree numbers numbers' fun v hv => (htyped v hv).imp fun _ hx => hx.1
    · rw [execute_cons entry hopcode, execute_cons entry' (mt hopcode'.1 hopcode)]
      refine SameEnd.bind (compute_copy o o' hfits.typed hopcode reread
        (hnan d (Array.mem_of_getElem? entry)) htyped hagree numbers numbers') ?_
      intro x? hx?
      rcases henv.step hs hdone entry hfits hopcode with ⟨v, x, hv, hx, hsettled⟩ | ⟨hzero, -⟩
      · rw [hx] at hx?
        cases hx?
        obtain ⟨v', hv'⟩ : ∃ v', d'.result? = some v' := by
          rw [← Option.isSome_iff_exists, reread.result?, hv]
          rfl
        rw [Numbering.after, Numbering.after, hv, hv'] at ih
        rw [bindResult, bindResult, hv, hv']
        refine ih (hn.assign v v') (by rwa [List.append_assoc, List.singleton_append]) ?_ hsettled
          (hagree.assign hn v v' x)
        obtain ⟨last, hmem, hlast⟩ := hret
        rcases List.mem_cons.1 hmem with rfl | hmem
        · rw [opcode?, entry, Option.map_some] at hlast
          exact absurd (Option.some.inj hlast) hopcode
        · exact ⟨last, hmem, hlast⟩
      · rw [hzero] at hx?
        cases hx?

/-- Copies end in a `ret`, and have no other one, where the operations do. -/
theorem Copies.ending {ops ops' : List OpId} (h : Copies s s' n n' ops ops')
    (hending : ∃ body last, ops = body ++ [last] ∧ s.opcode? last = some .ret ∧
      ∀ o ∈ body, s.opcode? o ≠ some .ret) :
    ∃ body last, ops' = body ++ [last] ∧ s'.opcode? last = some .ret ∧
      ∀ o ∈ body, s'.opcode? o ≠ some .ret := by
  obtain ⟨body, last, rfl, hlast, hbody⟩ := hending
  induction body generalizing n n' ops' with
  | nil =>
    cases h with
    | @cons _ _ _ o' _ rest' d d' operands entry entry' reread numbers numbers' more =>
      cases more
      rw [opcode?, entry] at hlast
      have hret : d'.opcode = .ret := by
        rw [reread.opcode]
        exact Opcode.reread_eq_ret_iff.2 (Option.some.inj hlast)
      exact ⟨[], o', rfl, by rw [opcode?, entry']; exact congrArg some hret,
        List.forall_mem_nil _⟩
  | cons o body ih =>
    cases h with
    | @cons _ _ _ o' _ rest' d d' operands entry entry' reread numbers numbers' more =>
      obtain ⟨body', last', rfl, hlast', hbody'⟩ :=
        ih more fun o ho => hbody o (List.mem_cons_of_mem _ ho)
      refine ⟨o' :: body', last', rfl, hlast', fun o₁ ho₁ => ?_⟩
      rcases List.mem_cons.1 ho₁ with rfl | ho₁
      · have hne := hbody o List.mem_cons_self
        rw [opcode?, entry] at hne
        rw [opcode?, entry', Option.map_some, reread.opcode]
        intro heq
        exact hne (congrArg some (Opcode.reread_eq_ret_iff.1 (Option.some.inj heq)))
      · exact hbody' o₁ ho₁

/-! ## Copied programs -/

/-- **Arguments are bound in the same way** to inputs of their types. -/
theorem bindArguments_copy {inputs inputs' : List ValueId} {args : List Scalar}
    (htys : inputs.map s.valueTy = args.map fun x => .ok x.ty)
    (htys' : inputs'.map s'.valueTy = args.map fun x => .ok x.ty) (hn : n.InStep n')
    (hagree : n.Agrees n' env env') (index : Nat) :
    ∃ last last', s.bindArguments (inputs.zip args) index env = .ok last ∧
      s'.bindArguments (inputs'.zip args) index env' = .ok last' ∧
      (n.assignAll inputs).Agrees (n'.assignAll inputs') last last' := by
  have hstep : ∀ {s : Store} {v : ValueId} {x : Scalar}, s.valueTy v = .ok x.ty →
      ∀ rest index env, s.bindArguments ((v, x) :: rest) index env =
        s.bindArguments rest (index + 1) (env.set v x) := by
    intro s v x hv rest index env
    rw [bindArguments, hv]
    exact if_neg fun hne => hne rfl
  induction args generalizing n n' inputs inputs' env env' index with
  | nil =>
    rw [List.map_eq_nil_iff.1 htys, List.map_eq_nil_iff.1 htys']
    exact ⟨env, env', rfl, rfl, hagree⟩
  | cons x args ih =>
    obtain ⟨v, inputs, rfl, hv, hmore⟩ := List.map_eq_cons_iff.1 htys
    obtain ⟨v', inputs', rfl, hv', hmore'⟩ := List.map_eq_cons_iff.1 htys'
    rw [List.zip_cons_cons, List.zip_cons_cons, hstep hv, hstep hv']
    exact ih hmore hmore' (hn.assign v v') (hagree.assign hn v v' x) (index + 1)

/-- The second program is a copy of the first one. -/
structure CopyOf (s : Store) (p : Program) (s' : Store) (p' : Program) : Prop where
  name : p'.name = p.name
  argTys : s'.argTys p'.entry = s.argTys p.entry
  ops : ∃ ops ops', p.ops s = .ok ops ∧ p'.ops s' = .ok ops' ∧
    Copies s s' (Numbering.start.assignAll (p.inputs s)) (Numbering.start.assignAll (p'.inputs s'))
      ops ops'

/-- The operations of a copy end in a `ret`, and have no other one, where those of the program
do. -/
theorem CopyOf.ending (h : CopyOf s p s' p') {ops ops' : List OpId} (hops : p.ops s = .ok ops)
    (hops' : p'.ops s' = .ok ops')
    (hending : ∃ body last, ops = body ++ [last] ∧ s.opcode? last = some .ret ∧
      ∀ o ∈ body, s.opcode? o ≠ some .ret) :
    ∃ body last, ops' = body ++ [last] ∧ s'.opcode? last = some .ret ∧
      ∀ o ∈ body, s'.opcode? o ≠ some .ret := by
  obtain ⟨ops₁, ops₁', hops₁, hops₁', hcopies⟩ := h.ops
  obtain rfl : ops = ops₁ := Except.ok.inj (hops.symm.trans hops₁)
  obtain rfl : ops' = ops₁' := Except.ok.inj (hops'.symm.trans hops₁')
  exact hcopies.ending hending

/-- **A copy gives the same outputs** on arguments of the right types, or divides by zero where the
program does. -/
theorem CopyOf.run (h : CopyOf s p s' p') (hs : s.Owned) (hs' : s'.Owned) (hnan : s.NaNFree)
    {ops : List OpId} (hv : s.Valid p ops) {args : List Scalar}
    (hargs : args.map Scalar.ty = s.argTys p.entry) : SameEnd (s.run p args) (s'.run p' args) := by
  obtain ⟨ops₁, ops', hops, hops', hcopies⟩ := h.ops
  obtain rfl : ops = ops₁ := Except.ok.inj (hv.listed.symm.trans hops)
  have htys : (p.inputs s).map s.valueTy = args.map fun x => .ok x.ty := by
    rw [Program.inputs, hs.valueTys_args, ← hargs, List.map_map]
    rfl
  have htys' : (p'.inputs s').map s'.valueTy = args.map fun x => .ok x.ty := by
    rw [Program.inputs, hs'.valueTys_args, h.argTys, ← hargs, List.map_map]
    rfl
  have hlength : (p.inputs s).length = args.length := by simpa using congrArg List.length htys
  have hlength' : (p'.inputs s').length = args.length := by simpa using congrArg List.length htys'
  obtain ⟨env, env', henv, henv', hagree⟩ := bindArguments_copy htys htys'
    Numbering.inStep_start (Numbering.agrees_start Table.empty Table.empty) 0
  have hn := Numbering.inStep_start.assignAll (hlength.trans hlength'.symm)
  have hret : ∃ o ∈ ops, s.opcode? o = some .ret := by
    obtain ⟨body, last, rfl, hlast, -⟩ := hv.ending
    exact ⟨last, by simp, hlast⟩
  have hflow : s.Flow p [] ([] ++ ops) := hv.flow
  have hexecute :=
    hcopies.execute hs hnan hn hflow hret (settled_bindArguments hlength henv) hagree
  rw [Store.run, Store.run, if_neg (by simpa using hlength), if_neg (by simpa using hlength'),
    hv.listed, hops', henv, henv']
  exact hexecute

end Store

end Mba
