import Mba.Proofs.Listing.Acceptance
import Mba.Proofs.Store.Joined

/-!
# Reading beside other programs

What a store holds already has no bearing on a text that is read into it. The text is accepted, or
refused with the same error, as it is where nothing else is, and gives a program with the same text:
names stand for values of the same text only, types are asked of those values only, and the numbers
of a store are in no error. In turn the text leaves what the store held as it was, and whatever
could be done with the programs there can be done with the same end.

Results:
* `Line.emit_alike`, `Line.assemble_alike`, `assembleLines_alike`: lines are built alike in two
  stores of which one holds more in front.
* `Program.read_alike`: so texts are read alike.
* `Program.read_everywhere`, `Program.refused_everywhere`: what is read, or refused, in one store is
  so in every other one.
* `SameOn.preserved`: as long as the old entries are as they were, so are the programs.
* `Program.read_insulated`: reading a text, compared with reading it into an empty store.
-/

namespace Mba

open Listing Store

/-! ## Programs abreast -/

namespace Store

/-- A program with the block `entry` is under construction in `t`, and so is the same program behind
`a` in `s`. There are `known` values or more in `t`. -/
structure Abreast (a : Store) (entry : BlockId) (known : Nat) (t s : Store) : Prop where
  joined : Joined a t s
  consistent : t.Consistent
  consistent' : s.Consistent
  entry : entry.index < t.blocks.size
  known : known ≤ t.values.size

variable {a t s t' s' : Store} {entry : BlockId} {known : Nat}

theorem Abreast.exists_target (h : Abreast a entry known t s) :
    ∃ target, t.blocks[entry.index]? = some target ∧
      s.blocks[(entry.behind a).index]? = some (target.behind a) := by
  refine ⟨_, Array.getElem?_eq_getElem h.entry, ?_⟩
  rw [h.joined.getElem?_blocks, Array.getElem?_eq_getElem h.entry, Option.map_some]

/-- Programs are still abreast when the same operation is emitted at the end of both. -/
theorem Abreast.emitted (h : Abreast a entry known t s) {target : Block} {draft : Draft}
    (ht : t.Emitted entry (target.ops ++ [⟨t.ops.size⟩]) draft t')
    (hs : s.Emitted (entry.behind a) ((target.behind a).ops ++ [⟨s.ops.size⟩]) (draft.behind a) s') :
    Abreast a entry known t' s' where
  joined := by
    refine h.joined.emitted ht ?_
    rw [List.map_append, List.map_singleton, OpId.behind, ← h.joined.size_ops]
    exact hs
  consistent := ht.consistent
  consistent' := hs.consistent
  entry := by
    rw [ht.blocks, Array.size_modify]
    exact h.entry
  known := by
    have hsize : t.values.size ≤ t'.values.size := by
      rw [ht.values]
      cases draft.resultTy? with
      | none => exact Nat.le_refl _
      | some ty =>
        rw [Array.size_push]
        exact Nat.le_succ _
    exact Nat.le_trans h.known hsize

end Store

/-! ## Calls of builders -/

/-- A value of the one store, and the same value of the other. -/
def Store.SameValue (a t : Store) (v v' : ValueId) : Prop :=
  t.isAllocated v = true ∧ v' = v.behind a

/-- Builders at the ends of programs abreast. -/
structure Builder.Abreast (a : Store) (entry : BlockId) (known : Nat) (b b' : Builder) : Prop where
  stores : Store.Abreast a entry known b.store b'.store
  point : b.point = .atEnd entry
  point' : b'.point = .atEnd (entry.behind a)

variable {a : Store} {entry : BlockId} {known : Nat}

namespace Builder

variable {b b' : Builder}

theorem emit_alike (h : Abreast a entry known b b') {draft : Draft} (hdraft : draft.parent? = none) :
    (emit draft b).Alike (Abreast a entry known) (fun _ _ _ => True) (emit (draft.behind a) b') := by
  obtain ⟨t, _, emitted⟩ := b
  obtain ⟨s, _, emitted'⟩ := b'
  obtain ⟨hstores, rfl, rfl⟩ := h
  obtain ⟨target, htarget, htarget'⟩ := hstores.exists_target
  have hdraft' : (draft.behind a).parent? = none := by rw [Draft.behind, hdraft, Option.map_none]
  obtain ⟨t', ht, het⟩ := emit_eq_done hstores.consistent (.atEnd entry) hdraft htarget rfl emitted
  obtain ⟨s', hs, hes⟩ := emit_eq_done hstores.consistent' (.atEnd (entry.behind a)) hdraft'
    htarget' rfl emitted'
  rw [ht, hs]
  exact .done ⟨hstores.emitted het hes, rfl, rfl⟩ trivial

theorem emitValue_alike (h : Abreast a entry known b b') (opcode : Opcode)
    (operands : List ValueId) (ty : Ty) :
    (emitValue opcode operands ty b).Alike (Abreast a entry known) (fun b => SameValue a b.store)
      (emitValue opcode (operands.map (.behind a)) ty b') := by
  obtain ⟨t, _, emitted⟩ := b
  obtain ⟨s, _, emitted'⟩ := b'
  obtain ⟨hstores, rfl, rfl⟩ := h
  obtain ⟨target, htarget, htarget'⟩ := hstores.exists_target
  obtain ⟨t', ht, het⟩ := emitValue_eq_done hstores.consistent (.atEnd entry) opcode operands ty
    htarget rfl emitted
  obtain ⟨s', hs, hes⟩ := emitValue_eq_done hstores.consistent' (.atEnd (entry.behind a)) opcode
    (operands.map (.behind a)) ty htarget' rfl emitted'
  rw [ht, hs]
  refine .done ⟨hstores.emitted het hes, rfl, rfl⟩ ⟨?_, ?_⟩
  · refine decide_eq_true ?_
    rw [het.values, Array.size_push]
    exact Nat.lt_succ_self _
  · rw [ValueId.behind, ← hstores.joined.size_values]

theorem typeOf_alike (h : Abreast a entry known b b') {x : ValueId} (hx : x.index < known) :
    (typeOf x b).Alike (Abreast a entry known) (fun _ ty ty' => ty = ty')
      (typeOf (x.behind a) b') := by
  obtain ⟨ty, hty, hty'⟩ := h.stores.joined.exists_valueTy (Nat.lt_of_lt_of_le hx h.stores.known)
  rw [typeOf_eq_done (valueTy_eq_ok_iff.1 hty), typeOf_eq_done (valueTy_eq_ok_iff.1 hty')]
  exact .done h rfl

theorem require_alike (h : Abreast a entry known b b') (holds : Bool) (defect : OperandDefect) :
    (require holds defect b).Alike (Abreast a entry known) (fun _ _ _ => True)
      (require holds defect b') := by
  cases holds with
  | true => exact .done h trivial
  | false => exact .failed h

theorem int_alike (h : Abreast a entry known b b') (ty : Ty) (value : Int) :
    (int ty value b).Alike (Abreast a entry known) (fun b => SameValue a b.store) (int ty value b') := by
  unfold int
  cases ty.width? with
  | none => exact .failed h
  | some w => exact emitValue_alike h _ [] ty

theorem double_alike (h : Abreast a entry known b b') (x : Double) :
    (double x b).Alike (Abreast a entry known) (fun b => SameValue a b.store) (double x b') :=
  emitValue_alike h _ [] .double

theorem unary_alike (h : Abreast a entry known b b') (op : UnaryOp) {x : ValueId}
    (hx : x.index < known) :
    (unary op x b).Alike (Abreast a entry known) (fun b => SameValue a b.store) (unary op (x.behind a) b') := by
  refine (typeOf_alike h hx).bind fun ty _ b b' h hty => ?_
  subst hty
  exact (require_alike h _ _).bind fun _ _ b b' h _ => emitValue_alike h _ [x] ty

theorem commonType_alike (h : Abreast a entry known b b') (opcode : Opcode) {x y : ValueId}
    (hx : x.index < known) (hy : y.index < known) :
    (commonType opcode x y b).Alike (Abreast a entry known) (fun _ ty ty' => ty = ty')
      (commonType opcode (x.behind a) (y.behind a) b') := by
  refine (typeOf_alike h hx).bind fun lhsTy _ b b' h hlhs => ?_
  refine (typeOf_alike h hy).bind fun rhsTy _ b b' h hrhs => ?_
  subst hlhs hrhs
  exact (require_alike h _ _).bind fun _ _ b b' h _ => .done h rfl

theorem binary_alike (h : Abreast a entry known b b') (op : BinaryOp) {x y : ValueId}
    (hx : x.index < known) (hy : y.index < known) :
    (binary op x y b).Alike (Abreast a entry known) (fun b => SameValue a b.store)
      (binary op (x.behind a) (y.behind a) b') := by
  refine (commonType_alike h _ hx hy).bind fun ty _ b b' h hty => ?_
  subst hty
  exact (require_alike h _ _).bind fun _ _ b b' h _ => emitValue_alike h _ [x, y] ty

theorem compare_alike (h : Abreast a entry known b b') (test : Comparison) {x y : ValueId}
    (hx : x.index < known) (hy : y.index < known) :
    (compare test x y b).Alike (Abreast a entry known) (fun b => SameValue a b.store)
      (compare test (x.behind a) (y.behind a) b') :=
  (commonType_alike h _ hx hy).bind fun _ _ _ _ h _ => emitValue_alike h _ [x, y] .bool

theorem ret_alike (h : Abreast a entry known b b') (outputs : List ValueId) :
    (ret outputs b).Alike (Abreast a entry known) (fun _ _ _ => True)
      (ret (outputs.map (.behind a)) b') :=
  emit_alike h rfl

end Builder

/-! ## Lines -/

namespace Listing

variable {t s : Store} {p : Program}

theorem check_alike {α : Type} (h : Store.Abreast a entry known t s)
    (result : Except ReadError α) :
    (check result t).Alike (Store.Abreast a entry known) (fun _ x y => x = y)
      (check result s) := by
  cases result with
  | ok x => exact .done h rfl
  | error e => exact .failed h

/-- A check that gives values of a store gives the same ones in the other store. -/
theorem check_map_alike {α : Type} (h : Store.Abreast a entry known t s)
    (result : Except ReadError α) (f : α → α) :
    (check result t).Alike (Store.Abreast a entry known) (fun _ x y => result = .ok x ∧ y = f x)
      (check (result.map f) s) := by
  cases result with
  | ok x => exact .done h ⟨rfl, rfl⟩
  | error e => exact .failed h

theorem call_alike {α : Type} (h : Store.Abreast a p.entry known t s) (offset : Nat)
    {calls calls' : Edit Builder BuildError α} {values : Store → α → α → Prop}
    (hcalls : ∀ b b', Builder.Abreast a p.entry known b b' →
      (calls b).Alike (Builder.Abreast a p.entry known) (fun b => values b.store) (calls' b')) :
    (call p offset calls t).Alike (Store.Abreast a p.entry known) values
      (call (p.behind a) offset calls' s) := by
  have hbuild : (Store.build (.atEnd p.entry) calls t).Alike (Store.Abreast a p.entry known)
      (fun t x y => values t x.1 y.1) (Store.build (.atEnd (p.behind a).entry) calls' s) := by
    have hstart := hcalls (Builder.start t (.atEnd p.entry))
      (Builder.start s (.atEnd (p.behind a).entry)) ⟨h, rfl, rfl⟩
    unfold Store.build
    generalize calls _ = outcome at hstart ⊢
    generalize calls' _ = outcome' at hstart ⊢
    cases hstart with
    | done hbuilders hvalues => exact .done hbuilders.stores hvalues
    | failed hbuilders => exact .failed hbuilders.stores
  exact (hbuild.mapError _).bind fun _ _ _ _ h hvalues => .done h hvalues

/-- What a line defines, if anything, in the one store and in the other. -/
def SameResult (a t : Store) (v? v?' : Option ValueId) : Prop :=
  (∀ v ∈ v?, t.isAllocated v = true) ∧ v?' = v?.map (.behind a)

/-- The same call over values of the other store. -/
def behindCall (a : Store) : Builder.Call → Builder.Call
  | .int ty value => .int ty value
  | .double x => .double x
  | .unary op x => .unary op (x.behind a)
  | .binary op x y => .binary op (x.behind a) (y.behind a)
  | .compare test x y => .compare test (x.behind a) (y.behind a)
  | .ret outputs => .ret (outputs.map (.behind a))

theorem some_alike {b b' : Builder} {m m' : Edit Builder BuildError ValueId}
    (h : (m b).Alike (Builder.Abreast a entry known) (fun b => SameValue a b.store) (m' b')) :
    ((some <$> m) b).Alike (Builder.Abreast a entry known) (fun b => SameResult a b.store)
      ((some <$> m') b') := by
  refine h.bind fun v _ b b' hb hvalue => .done hb ⟨fun w hw => ?_, ?_⟩
  · cases hw
    exact hvalue.1
  · rw [hvalue.2, Option.map_some]

/-- **A call gives alike** in builders abreast. -/
theorem give_alike {b b' : Builder} (h : Builder.Abreast a entry known b b') (call : Builder.Call)
    (hoperands : ∀ v ∈ call.operands, v.index < known) :
    (call.give b).Alike (Builder.Abreast a entry known) (fun b => SameResult a b.store)
      ((behindCall a call).give b') := by
  cases call with
  | int ty value => exact some_alike (Builder.int_alike h ty value)
  | double x => exact some_alike (Builder.double_alike h x)
  | unary op x => exact some_alike (Builder.unary_alike h op (hoperands x List.mem_cons_self))
  | binary op x y =>
    obtain ⟨hx, hy⟩ := List.forall_mem_cons.1 hoperands |>.imp_right List.forall_mem_singleton.1
    exact some_alike (Builder.binary_alike h op hx hy)
  | compare test x y =>
    obtain ⟨hx, hy⟩ := List.forall_mem_cons.1 hoperands |>.imp_right List.forall_mem_singleton.1
    exact some_alike (Builder.compare_alike h test hx hy)
  | ret outputs =>
    exact (Builder.ret_alike h outputs).bind fun _ _ _ _ hb _ => .done hb ⟨nofun, rfl⟩

/-- A line asks for the same call over values of the other store. -/
theorem Line.order_behind (line : Line) (operands : List ValueId) (annotated? : Option Ty) :
    line.order (operands.map (.behind a)) annotated? =
      (line.order operands annotated?).map (behindCall a) := by
  unfold Line.order
  cases line.instruction? with
  | none => rfl
  | some instruction =>
    cases instruction with
    | ret => rfl
    | int value =>
      dsimp only
      cases line.expectOperands 0 with
      | error e => rfl
      | ok _ => cases line.constantTy value annotated? <;> rfl
    | double x =>
      dsimp only
      cases line.expectOperands 0 <;> rfl
    | unary op =>
      match operands with
      | [] | [_] => rfl
      | _ :: _ :: _ => simp [Except.map]
    | binary op | compare test =>
      match operands with
      | [] | [_] | [_, _] => rfl
      | _ :: _ :: _ :: _ => simp [Except.map]

/-- **The operation of a line is built alike.** -/
theorem Line.emit_alike (line : Line) (h : Store.Abreast a p.entry known t s)
    {operands : List ValueId} (hoperands : ∀ v ∈ operands, v.index < known)
    (annotated? : Option Ty) :
    (line.emit p operands annotated? t).Alike (Store.Abreast a p.entry known) (SameResult a)
      (line.emit (p.behind a) (operands.map (.behind a)) annotated? s) := by
  rw [line.emit_eq, line.emit_eq, line.order_behind]
  refine (check_map_alike h _ _).bind fun order _ t s h horder => ?_
  obtain ⟨horder, rfl⟩ := horder
  exact call_alike h _ fun b b' hb => give_alike hb order fun v hv =>
    hoperands v ((Line.order_eq_ok.1 horder).operands_subset v hv)

/-! ## Names -/

/-- The names for the same values behind those of `a`. -/
def Names.behind (a : Store) (names : Names) : Names :=
  names.map fun entry => (entry.1, entry.2.behind a)

theorem Names.lookup_behind (names : Names) (name : String) :
    (names.behind a).lookup name = (names.lookup name).map (.behind a) := by
  induction names with
  | nil => rfl
  | cons entry rest ih =>
    obtain ⟨name', v⟩ := entry
    rw [behind, List.map_cons, List.lookup_cons, List.lookup_cons]
    cases name == name' with
    | true => rfl
    | false => exact ih

theorem Names.resolve_behind (names : Names) (offset : Nat) (name : String) :
    (names.behind a).resolve offset name = (names.resolve offset name).map (.behind a) := by
  rw [resolve, resolve, names.lookup_behind]
  cases names.lookup name <;> rfl

theorem Names.resolveAll_behind (names : Names) (offset : Nat) (operands : List String) :
    operands.mapM ((names.behind a).resolve offset) =
      (operands.mapM (names.resolve offset)).map (List.map (.behind a)) := by
  induction operands with
  | nil => rfl
  | cons name rest ih =>
    rw [List.mapM_cons, List.mapM_cons, ih, names.resolve_behind]
    cases names.resolve offset name with
    | error e => rfl
    | ok v => cases rest.mapM (names.resolve offset) <;> rfl

theorem nameParams_behind (params : List (String × ValueId)) (names : Names) :
    nameParams (params.map fun param => (param.1, param.2.behind a)) (names.behind a) =
      (nameParams params names).map (.behind a) := by
  induction params generalizing names with
  | nil => rfl
  | cons param rest ih =>
    obtain ⟨name, v⟩ := param
    rw [List.map_cons, nameParams, nameParams, names.lookup_behind, Option.isSome_map]
    split
    · rfl
    · exact ih ((name, v) :: names)

/-- Names for values of the one store, and for the same values of the other. -/
def SameNames (a t : Store) (names names' : Names) : Prop :=
  (∀ entry ∈ names, entry.2.index < t.values.size) ∧ names' = names.behind a

theorem Line.bindResult_alike (line : Line) (h : Store.Abreast a entry known t s) {names : Names}
    (hnames : ∀ entry ∈ names, entry.2.index < known) (annotated? : Option Ty)
    {v? : Option ValueId} (hv : ∀ v ∈ v?, t.isAllocated v = true) :
    (line.bindResult names annotated? v? t).Alike (Store.Abreast a entry known) (SameNames a)
      (line.bindResult (names.behind a) annotated? (v?.map (.behind a)) s) := by
  have hknown : ∀ entry ∈ names, entry.2.index < t.values.size := fun entry hentry =>
    Nat.lt_of_lt_of_le (hnames entry hentry) h.known
  cases v? with
  | none =>
    unfold Line.bindResult
    cases line.result? with
    | none => exact .done h ⟨hknown, rfl⟩
    | some name => exact .failed h
  | some v =>
    unfold Line.bindResult
    cases line.result? with
    | none => exact .failed h
    | some name =>
      have hlt : v.index < t.values.size := of_decide_eq_true (hv v rfl)
      obtain ⟨ty, hty, hty'⟩ := h.joined.exists_valueTy hlt
      refine (Outcome.Alike.read h (lift_eq_ok.2 hty) (lift_eq_ok.2 hty')).bind
        fun _ _ t₁ s₁ h₁ hread => ?_
      obtain ⟨rfl, rfl, rfl⟩ := hread
      rw [names.lookup_behind, Option.isSome_map]
      cases annotated?.filter fun annotated => annotated ≠ ty with
      | some annotated => exact .failed h₁
      | none =>
        dsimp only
        split
        · exact .failed h₁
        · refine .done h₁ ⟨fun entry hentry => ?_, rfl⟩
          rcases List.mem_cons.1 hentry with rfl | hold
          · exact hlt
          · exact hknown entry hold

/-- **Lines are built alike.** -/
theorem Line.assemble_alike (line : Line) (h : Store.Abreast a p.entry known t s) {names : Names}
    (hnames : ∀ entry ∈ names, entry.2.index < known) :
    (line.assemble p names t).Alike (Store.Abreast a p.entry known) (SameNames a)
      (line.assemble (p.behind a) (names.behind a) s) := by
  unfold Line.assemble
  rw [names.resolveAll_behind]
  refine (check_map_alike h _ _).bind fun operands _ t s h hoperands => ?_
  obtain ⟨hresolve, rfl⟩ := hoperands
  have hoperands : ∀ v ∈ operands, v.index < known := by
    intro v hv
    obtain ⟨name, -, hname⟩ := exists_of_mem_mapM hresolve hv
    exact hnames _ (resolve_ok hname)
  refine (check_alike h _).bind fun annotated? _ t s h hannotated => ?_
  subst hannotated
  refine (line.emit_alike h hoperands annotated?).bind fun v? _ t s h hv => ?_
  obtain ⟨hv, rfl⟩ := hv
  exact line.bindResult_alike h hnames annotated? hv

/-- **Lists of lines are built alike.** -/
theorem assembleLines_alike (lines : List Line) (h : Store.Abreast a p.entry known t s)
    {names : Names} (hnames : ∀ entry ∈ names, entry.2.index < known) :
    (assembleLines p lines names t).Alike (Store.Abreast a p.entry known) (fun _ _ _ => True)
      (assembleLines (p.behind a) lines (names.behind a) s) := by
  induction lines generalizing known t s names with
  | nil => exact .done h trivial
  | cons line rest ih =>
    refine (line.assemble_alike h hnames).bind fun names₁ _ t s h hnames₁ => ?_
    obtain ⟨hnames₁, rfl⟩ := hnames₁
    exact (ih ⟨h.joined, h.consistent, h.consistent', h.entry, Nat.le_refl _⟩ hnames₁).imp
      (fun _ _ h₁ => ⟨h₁.joined, h₁.consistent, h₁.consistent', h₁.entry,
        Nat.le_trans h.known h₁.known⟩) fun _ _ _ _ => trivial

/-- The same program is created in the empty store and behind what another one holds. -/
theorem create_alike (ha : a.Consistent) (name : String) (tys : List Ty) :
    ((Edit.update fun s => Program.create s name tys : Edit Store ReadError Program) empty).Alike
      (Store.Abreast a ⟨0⟩ (empty.createBlock tys []).2.values.size)
      (fun t q p => t = (empty.createBlock tys []).2 ∧ q = ⟨name, ⟨0⟩⟩ ∧ p = q.behind a)
      ((Edit.update fun s => Program.create s name tys : Edit Store ReadError Program) a) :=
  .done
    { joined := (joined_empty a).createBlock tys
      consistent := consistent_empty.createBlock tys []
      consistent' := ha.createBlock tys []
      entry := Nat.zero_lt_one
      known := Nat.le_refl _ }
    ⟨rfl, rfl, rfl⟩

theorem inputs_alike (h : Store.Abreast a p.entry known t s) :
    ((Edit.read fun t => .ok (p.inputs t) : Edit Store ReadError (List ValueId)) t).Alike
      (Store.Abreast a p.entry known)
      (fun t₁ vs vs' => t₁ = t ∧ vs = p.inputs t ∧ vs' = vs.map (.behind a))
      ((Edit.read fun s => .ok ((p.behind a).inputs s) : Edit Store ReadError (List ValueId)) s) :=
  .done h ⟨rfl, rfl, h.joined.args p.entry⟩

/-- **Listings are built alike** in the empty store and behind what another one holds. -/
theorem assemble_alike (ha : a.Consistent) (listing : Listing) :
    (listing.assemble empty).Alike (Joined a) (fun _ q p => p = q.behind a)
      (listing.assemble a) := by
  unfold Listing.assemble
  cases listing.header.params.mapM fun param => readTy param.2 0 with
  | error e => exact .failed (joined_empty a)
  | ok tys =>
    rw [Edit.bind_done (check_ok tys empty), Edit.bind_done (check_ok tys a)]
    refine ((create_alike ha _ tys).bind fun q _ t s h hq => ?_).imp (fun _ _ h => h.joined)
      fun _ _ _ h => h
    obtain ⟨rfl, rfl, rfl⟩ := hq
    refine (inputs_alike (p := ⟨_, ⟨0⟩⟩) h).bind fun inputs _ t₁ s₁ h₁ hinputs => ?_
    obtain ⟨rfl, rfl, rfl⟩ := hinputs
    set q : Program := ⟨listing.header.name, ⟨0⟩⟩
    have hparams : nameParams ((listing.header.params.map (·.1)).zip
          ((q.inputs (empty.createBlock tys []).2).map (.behind a))) [] =
        (nameParams ((listing.header.params.map (·.1)).zip
          (q.inputs (empty.createBlock tys []).2)) []).map (.behind a) := by
      rw [List.zip_map_right]
      exact nameParams_behind _ []
    rw [hparams]
    refine (check_map_alike h₁ _ _).bind fun names _ t s h hnames => ?_
    obtain ⟨hparams, rfl⟩ := hnames
    have hknown : ∀ entry ∈ names,
        entry.2.index < (empty.createBlock tys []).2.values.size := by
      intro entry hentry
      have hinput := (nameParams_mem hparams entry hentry).resolve_left List.not_mem_nil
      have hdefines : (empty.createBlock tys []).2.Defines q [] entry.2 :=
        .inl (List.of_mem_zip hinput).2
      exact of_decide_eq_true
        (hdefines.isAllocated (consistent_empty.createBlock tys []).owned)
    exact (assembleLines_alike listing.lines h hknown).bind fun _ _ _ _ h _ => .done h rfl

end Listing

/-- **Texts are read alike** into the empty store and behind what another one holds. -/
theorem Program.read_alike (ha : a.Consistent) (text : String) :
    (Program.read text empty).Alike (Joined a) (fun _ q p => p = q.behind a)
      (Program.read text a) := by
  unfold Program.read
  cases Listing.ofText text with
  | error e => exact .failed (joined_empty a)
  | ok listing => exact assemble_alike ha listing

variable {t t' : Store} {p : Program} {text : String}

/-- Reading a text ends in one way in all stores. -/
theorem Program.read_alike_everywhere (ha : a.Consistent) (ht : t.Consistent) (text : String) :
    (Program.read text a).Alike (fun _ _ => True) (fun _ _ _ => True) (Program.read text t) := by
  have hfirst := Program.read_alike ha text
  have hsecond := Program.read_alike ht text
  generalize Program.read text empty = outcome at hfirst hsecond
  generalize Program.read text a = outcome₁ at hfirst ⊢
  generalize Program.read text t = outcome₂ at hsecond ⊢
  cases hfirst <;> cases hsecond
  · exact .done trivial trivial
  · exact .failed trivial

/-- **What is read in one store is read in every other one.** -/
theorem Program.read_everywhere (ha : a.Consistent) (ht : t.Consistent) {s : Store}
    (h : Program.read text a = .done p s) : ∃ q t', Program.read text t = .done q t' := by
  have halike := Program.read_alike_everywhere ha ht text
  rw [h] at halike
  generalize Program.read text t = outcome at halike ⊢
  cases halike
  exact ⟨_, _, rfl⟩

/-- **What is refused in one store is refused in every other one**, with the same error. -/
theorem Program.refused_everywhere (ha : a.Consistent) (ht : t.Consistent) {s : Store}
    {e : ReadError} (h : Program.read text a = .failed e s) : ∃ t', Program.read text t = .failed e t' := by
  have halike := Program.read_alike_everywhere ha ht text
  rw [h] at halike
  generalize Program.read text t = outcome at halike ⊢
  cases halike
  exact ⟨_, rfl⟩

/-! ## Programs that were there before -/

namespace Store

/-- What the store `a` held is as it was, and whatever could be done with a program of it can still
be done, with the same end. -/
structure Preserved (a s : Store) : Prop where
  entries : SameOn (Part.all a) a s
  print : ∀ q : Program, q.entry.index < a.blocks.size → ∀ text,
    q.print a = .ok text → q.print s = .ok text
  validate : ∀ q : Program, q.entry.index < a.blocks.size → ∀ violations,
    a.validate q = .ok violations → s.validate q = .ok violations
  run : ∀ q : Program, q.entry.index < a.blocks.size → ∀ args answer,
    (a.run q args).answer = .ok answer → (s.run q args).answer = .ok answer

variable {a s : Store} {q : Program}

theorem lt_of_printOps {ops : List OpId} {n : Numbering} {texts : List String}
    (h : s.printOps ops n = .ok texts) : ∀ o ∈ ops, o.index < s.ops.size := by
  induction ops generalizing n texts with
  | nil => exact nofun
  | cons o rest ih =>
    obtain ⟨d, hd, hrest⟩ := bind_eq_ok.1 h
    obtain ⟨more, hmore, -⟩ := bind_eq_ok.1 hrest
    intro o' ho'
    rcases List.mem_cons.1 ho' with rfl | ho'
    · exact (Array.getElem?_eq_some_iff.1 (op_eq_ok_iff.1 hd)).1
    · exact ih hmore o' ho'

theorem lt_of_flowViolations {ops : List OpId} {defined : Marks} {found : List Violation}
    (h : s.flowViolations q ops defined = .ok found) : ∀ o ∈ ops, o.index < s.ops.size := by
  induction ops generalizing defined found with
  | nil => exact nofun
  | cons o rest ih =>
    obtain ⟨here, hhere, hrest⟩ := bind_eq_ok.1 h
    obtain ⟨more, hmore, -⟩ := bind_eq_ok.1 hrest
    obtain ⟨d, hd, -⟩ := bind_eq_ok.1 hhere
    intro o' ho'
    rcases List.mem_cons.1 ho' with rfl | ho'
    · exact (Array.getElem?_eq_some_iff.1 (op_eq_ok_iff.1 hd)).1
    · exact ih hmore o' ho'

/-- All operations and values that a store holds, and the block of one program. -/
def Part.around (a : Store) (q : Program) : Part :=
  ⟨(Part.all a).op, (Part.all a).value, (· = q.entry)⟩

/-- The part of a program does not lead out of the store if the listed operations are there. -/
theorem Owned.closed_around (ho : a.Owned) (ha : a.OperandsAllocated) {ops : List OpId}
    (hops : q.ops a = .ok ops) (hlisted : ∀ o ∈ ops, o.index < a.ops.size) :
    (Part.around a q).Closed a where
  listed b d hb hd := by
    obtain rfl : b = q.entry := hb
    obtain ⟨d', hd', rfl⟩ := ops_eq_ok_iff.1 hops
    obtain rfl := Option.some.inj (hd.symm.trans hd')
    refine ⟨hlisted, fun v hv => ?_⟩
    have hinput : a.Defines q [] v := by
      refine .inl ?_
      rwa [Program.inputs, Store.args, hd]
    exact hinput.isAllocated ho
  operands o d _ hd v hv := ha.of_mem hd hv
  result o v _ hv := by
    obtain ⟨ty, -, hvalue⟩ := ho.result_origin o v hv
    exact decide_eq_true (Array.getElem?_eq_some_iff.1 hvalue).1
  definer v o ty _ hvalue := by
    obtain ⟨d, hd, -⟩ := Option.bind_eq_some_iff.1 (ho.origin_result o v ty hvalue)
    exact (Array.getElem?_eq_some_iff.1 hd).1

namespace SameOn

variable (h : SameOn (Part.all a) a s)
include h

theorem around (hq : q.entry.index < a.blocks.size) : SameOn (Part.around a q) a s where
  ops := h.ops
  values := h.values
  uses := h.uses
  blocks b hb := h.blocks b (by obtain rfl : b = q.entry := hb; exact hq)

/-- As far as a run asks for operations that are there, it goes on in the same way. -/
theorem execute_answer {ops : List OpId} {env : Env} {answer : Except EvalError (List Scalar)}
    (hrun : (a.execute ops env).answer = .ok answer) :
    (s.execute ops env).answer = .ok answer := by
  induction ops generalizing env with
  | nil => exact hrun
  | cons o rest ih =>
    rw [execute] at hrun ⊢
    cases hd : a.op o with
    | error f =>
      rw [hd] at hrun
      cases hrun
    | ok d =>
      have hlt := (Array.getElem?_eq_some_iff.1 (op_eq_ok_iff.1 hd)).1
      rw [hd] at hrun
      rw [h.op_eq hlt, hd]
      change (if d.opcode = .ret then _ else compute o d env >>= fun x? =>
        a.execute rest (bindResult d env x?)).answer = _ at hrun
      change (if d.opcode = .ret then _ else compute o d env >>= fun x? =>
        s.execute rest (bindResult d env x?)).answer = _
      split at hrun
      · next hret => rwa [if_pos hret]
      · next hret =>
        rw [if_neg hret]
        cases hx : compute o d env with
        | error stop => rwa [hx] at hrun
        | ok x? =>
          rw [hx] at hrun
          exact ih hrun

/-- **As long as the old entries are as they were, so are the programs.** -/
theorem preserved (ho : a.Owned) (ha : a.OperandsAllocated) : Preserved a s where
  entries := h
  print q hq text hprint := by
    obtain ⟨inputs, -, hrest⟩ := bind_eq_ok.1 hprint
    obtain ⟨ops, hops, htexts⟩ := bind_eq_ok.1 hrest
    obtain ⟨texts, htexts, -⟩ := bind_eq_ok.1 htexts
    rw [(h.around hq).print_eq (ho.closed_around ha hops (lt_of_printOps htexts)) rfl, hprint]
  validate q hq violations hvalidate := by
    obtain ⟨ops, hops, hrest⟩ := bind_eq_ok.1 hvalidate
    obtain ⟨flow, hflow, -⟩ := bind_eq_ok.1 hrest
    rw [(h.around hq).validate_eq (ho.closed_around ha hops (lt_of_flowViolations hflow)) rfl,
      hvalidate]
  run q hq args answer hrun := by
    have hinputs : q.inputs s = q.inputs a := h.args_eq hq
    have hops : q.ops s = q.ops a := h.listed_eq hq
    have hbind : s.bindArguments ((q.inputs a).zip args) 0 Table.empty =
        a.bindArguments ((q.inputs a).zip args) 0 Table.empty := by
      refine bindArguments_congr (fun v hv => h.valueTy_eq ?_) 0 _
      obtain ⟨pair, hpair, rfl⟩ := List.mem_map.1 hv
      have hinput : a.Defines q [] pair.1 := .inl (List.of_mem_zip hpair).1
      exact hinput.isAllocated ho
    rw [Store.run] at hrun ⊢
    rw [hinputs, hops, hbind]
    split at hrun
    · next hcount => rwa [if_pos hcount]
    · next hcount =>
      rw [if_neg hcount]
      cases hlisted : q.ops a with
      | error f => rwa [hlisted] at hrun
      | ok ops =>
        rw [hlisted] at hrun
        cases hbound : a.bindArguments ((q.inputs a).zip args) 0 Table.empty with
        | error stop => rwa [hbound] at hrun
        | ok env =>
          rw [hbound] at hrun
          exact h.execute_answer hrun

end SameOn

end Store

namespace Listing

/-- A parameter of an unknown type is refused before anything is created. -/
theorem readTys_unknown {params : List (String × String)}
    (h : ∃ param ∈ params, Ty.ofName? param.2 = none) :
    ∃ name, params.mapM (fun param => readTy param.2 0) = .error ⟨.unknownType name, 0⟩ := by
  induction params with
  | nil => exact absurd h (by simp)
  | cons param rest ih =>
    rw [List.mapM_cons]
    cases hty : Ty.ofName? param.2 with
    | none => exact ⟨param.2, by rw [readTy, hty]; rfl⟩
    | some ty =>
      obtain ⟨other, hother, hnone⟩ := h
      rcases List.mem_cons.1 hother with rfl | hrest
      · rw [hty] at hnone
        cases hnone
      · obtain ⟨name, hname⟩ := ih ⟨other, hrest, hnone⟩
        exact ⟨name, by rw [readTy, hty, hname]; rfl⟩

end Listing

/-- **Reading a text is insulated from what the store holds.** In a reachable store in which all
operands are values, a text is read just if it is read into the empty store, and then gives a
program with the same text; if it is not, it is refused with the same error at the same place.
Either way all that the store held is as it was, and its programs are printed, validated and run as
before. A text that is no listing, or has a parameter of an unknown type, does not change the store
at all. -/
theorem Program.read_insulated {a : Store} (hs : a.Reachable) (ha : a.OperandsAllocated)
    (text : String) :
    ((∃ p s q t printed, Program.read text a = .done p s ∧ Program.read text empty = .done q t ∧
          p.print s = .ok printed ∧ q.print t = .ok printed ∧ Preserved a s) ∨
        ∃ e s t, Program.read text a = .failed e s ∧ Program.read text empty = .failed e t ∧
          Preserved a s) ∧
      (∀ e, Listing.ofText text = .error e → Program.read text a = .failed e a) ∧
      ∀ listing, Listing.ofText text = .ok listing →
        (∃ param ∈ listing.header.params, Ty.ofName? param.2 = none) →
        ∃ name, Program.read text a = .failed ⟨.unknownType name, 0⟩ a := by
  have hc := hs.consistent
  refine ⟨?_, fun e htext => ?_, fun listing htext hunknown => ?_⟩
  · have halike := Program.read_alike hc text
    generalize ht : Program.read text empty = outcome at halike
    generalize hr : Program.read text a = outcome' at halike
    cases halike with
    | @done q p t s hjoined hp =>
      subst hp
      obtain ⟨-, ⟨done, hbuilt⟩, -⟩ := Program.read_done consistent_empty ht
      obtain ⟨-, ⟨done', hbuilt'⟩, -⟩ := Program.read_done hc hr
      obtain ⟨printed, hq, hp⟩ := hjoined.print_eq hbuilt.consistent.owned hbuilt'.consistent.owned
        hbuilt.listed hbuilt.flow
      exact .inl ⟨_, s, q, t, printed, rfl, rfl, hp, hq, hjoined.sameOn.preserved hc.owned ha⟩
    | @failed e t s hjoined =>
      exact .inr ⟨e, s, t, rfl, rfl, hjoined.sameOn.preserved hc.owned ha⟩
  · unfold Program.read
    rw [htext]
    rfl
  · obtain ⟨name, hname⟩ := readTys_unknown hunknown
    refine ⟨name, ?_⟩
    unfold Program.read
    rw [htext, Edit.bind_done (check_ok listing a), Listing.assemble, hname]
    rfl

/-- The text of a program with a parameter of an unknown type. -/
def oddText : String :=
  "program @odd(%a: i8, %b: i7) \x7b
  return %a
\x7d
"

theorem Program.read_insulated_early :
    (∃ p s q t printed, Program.read earlyText quotientStore = .done p s ∧
        Program.read earlyText empty = .done q t ∧ p.print s = .ok printed ∧
        q.print t = .ok printed ∧ Preserved quotientStore s) ∧
      ∃ name, Program.read oddText quotientStore = .failed ⟨.unknownType name, 0⟩ quotientStore := by
  have hearly := (Program.read_insulated reachable_quotientStore (by decide) earlyText).1
  have hodd := (Program.read_insulated reachable_quotientStore (by decide) oddText).2.2
  constructor
  · refine hearly.resolve_right ?_
    rintro ⟨e, s, t, hfailed, -⟩
    have hdone : (Program.read earlyText quotientStore).done?.isSome = true := by decide +kernel
    rw [hfailed] at hdone
    cases hdone
  · have hfound : ((Listing.ofText oddText).toOption.any fun listing =>
        listing.header.params.any fun param => Ty.ofName? param.2 = none) = true := by
      decide +kernel
    cases htext : Listing.ofText oddText with
    | error e =>
      rw [htext] at hfound
      cases hfound
    | ok listing =>
      rw [htext] at hfound
      obtain ⟨param, hparam, hnone⟩ := List.any_eq_true.1 hfound
      exact hodd listing htext ⟨param, hparam, of_decide_eq_true hnone⟩

end Mba
