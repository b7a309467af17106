import Mba.Mutation.Expansion
import Mba.Proofs.Listing.Loading
import Mba.Proofs.Program.Calls
import Mba.Proofs.Store.Runs

/-!
# Edits that only add

Calls of a builder, expansions and readings of texts change a store by elementary changes, and by
few of them: they create blocks that are empty and operations, and place these. Before an operation
is created the types of its operands are asked for, so its operands are values; only the outputs of
a `ret` are taken as they come. A text names values of its own program only. So all that these edits
leave, whether they are done or fail, was reached by careful changes which redirect nothing.

Results:
* `Runs.bind`: what an edit in two steps leaves.
* `Builder.Call.give_runs`: calls of a builder.
* `Template.emit_runs`, `Store.expand_runs`, `Bench.expand_runs`: expansions.
* `Program.read_runs`: readings of texts.
* `Store.Grows.run`: all of them.
-/

namespace Mba

open Store

variable {σ τ ε δ α β : Type}

/-! ## What edits leave -/

/-- What the edit leaves, done or failed, is a store that changes lead to from `s`, each of them
allowed. Its answer is as `answers` says, in the store it is given with. -/
def Outcome.Runs (allowed : Store → Change → Prop) (view : σ → Store) (s : Store)
    (answers : α → Store → Prop) : Outcome σ ε α → Prop
  | .done a t => Run allowed s (view t) ∧ answers a (view t)
  | .failed _ t => Run allowed s (view t)
  | .fault _ => True

/-- The state that an edit leaves; a fault leaves none. -/
def Outcome.state? : Outcome σ ε α → Option σ
  | .done _ s | .failed _ s => some s
  | .fault _ => none

namespace Outcome.Runs

variable {allowed allowed' : Store → Change → Prop} {view : σ → Store} {s s' : Store} {t t' : σ}
  {mid : α → Store → Prop} {answers answers' : β → Store → Prop} {outcome : Outcome σ ε β}

theorem run (h : outcome.Runs allowed view s answers) (hstate : outcome.state? = some t') :
    Run allowed s (view t') := by
  cases outcome with
  | done b t =>
    cases hstate
    exact h.1
  | failed e t =>
    cases hstate
    exact h
  | fault f => cases hstate

theorem after (h : outcome.Runs allowed view s' answers) (hrun : Run allowed s s') :
    outcome.Runs allowed view s answers := by
  cases outcome with
  | done b t => exact ⟨hrun.trans h.1, h.2⟩
  | failed e t => exact hrun.trans h
  | fault f => trivial

theorem imp (h : outcome.Runs allowed view s answers)
    (hallowed : ∀ t change, allowed t change → allowed' t change)
    (hanswers : ∀ b t, Run allowed s t → answers b t → answers' b t) :
    outcome.Runs allowed' view s answers' := by
  cases outcome with
  | done b t => exact ⟨h.1.mono hallowed, hanswers b _ h.1 h.2⟩
  | failed e t => exact Run.mono h hallowed
  | fault f => trivial

/-- **An edit in two steps** leaves what its steps leave. -/
theorem bind {m : Edit σ ε α} {next : α → Edit σ ε β} (hs : (view t).Consistent)
    (hm : (m t).Runs allowed view (view t) mid)
    (hnext : ∀ a t', (view t').Consistent → (view t).Within (view t') → mid a (view t') →
      (next a t').Runs allowed view (view t') answers) :
    ((m >>= next) t).Runs allowed view (view t) answers := by
  cases h : m t with
  | done a t' =>
    rw [h] at hm
    rw [Edit.bind_done h]
    exact (hnext a t' (hm.1.consistent hs) (hm.1.within hs) hm.2).after hm.1
  | failed e t' =>
    rw [h] at hm
    rw [Edit.bind_failed h]
    exact hm
  | fault f =>
    rw [Edit.bind_fault h]
    trivial

theorem pure {b : β} (h : answers b (view t)) :
    ((pure b : Edit σ ε β) t).Runs allowed view (view t) answers :=
  ⟨.refl, h⟩

theorem fail (e : ε) : ((Edit.fail e : Edit σ ε β) t).Runs allowed view (view t) answers :=
  Run.refl

theorem read {query : σ → Attempt ε β} (h : ∀ b, query t = .ok b → answers b (view t)) :
    (Edit.read query t).Runs allowed view (view t) answers := by
  unfold Edit.read
  split
  · next b hb => exact ⟨.refl, h b hb⟩
  · exact Run.refl
  · trivial

/-- An edit that reads first, whatever the answer. -/
theorem ask {query : σ → Attempt ε α} {next : α → Edit σ ε β}
    (h : ∀ a, (next a t).Runs allowed view (view t) answers) :
    ((Edit.read query >>= next) t).Runs allowed view (view t) answers := by
  cases hquery : query t with
  | ok a =>
    rw [Edit.bind_done (Edit.read_done hquery)]
    exact h a
  | error stop =>
    cases stop with
    | fault f =>
      rw [Edit.bind_fault (Edit.read_fault hquery)]
      trivial
    | error e =>
      rw [Edit.bind_failed (Edit.read_failed hquery)]
      exact Run.refl

theorem step {f : σ → Except Fault (β × σ)} (h : ∀ b t', f t = .ok (b, t') →
    Run allowed (view t) (view t')) :
    (Edit.step f t : Outcome σ ε β).Runs allowed view (view t) fun _ _ => True := by
  unfold Edit.step
  split
  · next b t' hok => exact ⟨h b t' hok, trivial⟩
  · trivial

theorem change {f : σ → Except Fault σ} (h : ∀ t', f t = .ok t' → Run allowed (view t) (view t')) :
    (Edit.change f t : Outcome σ ε Unit).Runs allowed view (view t) fun _ _ => True := by
  unfold Edit.change
  split
  · next t' hok => exact ⟨h t' hok, trivial⟩
  · trivial

theorem mapError {m : Edit σ ε β} (hm : (m t).Runs allowed view s answers) (rename : ε → δ) :
    (Edit.mapError rename m t).Runs allowed view s answers := by
  unfold Edit.mapError
  cases h : m t with
  | done b t' =>
    rw [h] at hm
    exact hm
  | failed e t' =>
    rw [h] at hm
    exact hm
  | fault f => trivial

theorem map {m : Edit σ ε α} {f : α → β} (hs : (view t).Consistent)
    (hm : (m t).Runs allowed view (view t) mid)
    (h : ∀ a t', mid a (view t') → answers (f a) (view t')) :
    ((f <$> m) t).Runs allowed view (view t) answers :=
  hm.bind hs fun a t' _ _ ha => .pure (h a t' ha)

end Outcome.Runs

/-! ## Calls of a builder -/

namespace Builder

variable {b : Builder} {v w x y : ValueId} {ty : Ty}

/-- All that a builder leaves was reached by careful changes which redirect nothing. -/
abbrev Adds (b : Builder) (outcome : Outcome Builder BuildError α)
    (answers : α → Store → Prop) : Prop :=
  outcome.Runs Change.Growing Builder.store b.store answers

theorem exists_change_of_place {point : InsertPoint} {s s' : Store} {o : OpId}
    (h : place point s o = .ok s') : ∃ change : Change, change.Growing s ∧ change.apply s = .ok s' := by
  cases point with
  | atEnd block => exact ⟨.pushOp block o, ⟨⟨trivial, fun _ hv => hv.elim⟩, fun _ hv => hv⟩, h⟩
  | before block anchor =>
    exact ⟨.insertOpBefore block anchor o, ⟨⟨trivial, fun _ hv => hv.elim⟩, fun _ hv => hv⟩, h⟩

theorem emit_runs {draft : Draft} (hoperands : ∀ v ∈ draft.operands, b.store.isAllocated v = true) :
    b.Adds (emit draft b) fun _ _ => True := by
  obtain ⟨s, point, emitted⟩ := b
  unfold emit Edit.step Adds
  cases hcreate : s.createOp draft with
  | error f => simp [hcreate, bind, Except.bind, Outcome.Runs]
  | ok created =>
    obtain ⟨o, s₁⟩ := created
    cases hplace : place point s₁ o with
    | error f => simp [hcreate, hplace, bind, Except.bind, Outcome.Runs]
    | ok s₂ =>
      have hcreated : Run Change.Growing s s₁ :=
        .single (.createOp draft) ⟨⟨trivial, hoperands⟩, fun _ hv => hv⟩
          (map_eq_ok.2 ⟨_, hcreate, rfl⟩)
      obtain ⟨change, hgrowing, hplaced⟩ := exists_change_of_place hplace
      simp only [hcreate, hplace, bind, Except.bind]
      exact ⟨hcreated.step change hgrowing hplaced, trivial⟩

section

variable (hs : b.store.Consistent)
include hs

theorem emitValue_runs {opcode : Opcode} {operands : List ValueId}
    (hoperands : ∀ v ∈ operands, b.store.isAllocated v = true) :
    b.Adds (emitValue opcode operands ty b) fun v s => s.isAllocated v = true := by
  refine .bind hs (emit_runs hoperands) fun o b' hs' _ _ => .read fun v hv => ?_
  split at hv
  · next hresult =>
    cases hv
    exact hs'.owned.isAllocated_of_result? hresult
  · cases hv

omit hs in
theorem typeOf_runs : b.Adds (typeOf x b) fun _ s => s.isAllocated x = true :=
  .read fun _ hty => isAllocated_iff_valueTy.2 ⟨_, lift_eq_ok.1 hty⟩

omit hs in
theorem require_runs (holds : Bool) (defect : OperandDefect) :
    b.Adds (require holds defect b) fun _ _ => True := by
  unfold require
  split
  · exact .pure trivial
  · exact .fail _

theorem commonType_runs (opcode : Opcode) : b.Adds (commonType opcode x y b)
    fun _ s => s.isAllocated x = true ∧ s.isAllocated y = true :=
  typeOf_runs.bind hs fun _ _ hs₁ _ hx => typeOf_runs.bind hs₁ fun _ _ hs₂ hin hy =>
    (require_runs _ _).bind hs₂ fun _ _ _ hin' _ =>
      .pure ⟨(hin.trans hin').isAllocated hx, hin'.isAllocated hy⟩

theorem int_runs (value : Int) : b.Adds (int ty value b) fun v s => s.isAllocated v = true := by
  cases ty with
  | int w => exact emitValue_runs hs nofun
  | double => exact .fail _
  | bool => exact .fail _

theorem double_runs (value : Double) : b.Adds (double value b) fun v s => s.isAllocated v = true :=
  emitValue_runs hs nofun

theorem unary_runs (op : UnaryOp) : b.Adds (unary op x b) fun v s => s.isAllocated v = true := by
  refine typeOf_runs.bind hs fun ty b₁ hs₁ _ hx => ?_
  refine (require_runs _ _).bind hs₁ fun _ b₂ hs₂ hin _ => emitValue_runs hs₂ fun v hv => ?_
  obtain rfl := List.mem_singleton.1 hv
  exact hin.isAllocated hx

theorem binary_runs (op : BinaryOp) : b.Adds (binary op x y b) fun v s => s.isAllocated v = true := by
  refine (commonType_runs hs _).bind hs fun ty b₁ hs₁ _ hxy => ?_
  refine (require_runs _ _).bind hs₁ fun _ b₂ hs₂ hin _ => emitValue_runs hs₂ ?_
  exact List.forall_mem_cons.2
    ⟨hin.isAllocated hxy.1, List.forall_mem_singleton.2 (hin.isAllocated hxy.2)⟩

theorem compare_runs (test : Comparison) :
    b.Adds (compare test x y b) fun v s => s.isAllocated v = true :=
  (commonType_runs hs _).bind hs fun _ _ hs₁ _ hxy => emitValue_runs hs₁
    (List.forall_mem_cons.2 ⟨hxy.1, List.forall_mem_singleton.2 hxy.2⟩)

/-- A call that defines a value gives one. -/
theorem some_runs {m : Edit Builder BuildError ValueId}
    (h : b.Adds (m b) fun v s => s.isAllocated v = true) :
    b.Adds ((some <$> m) b) fun v? s => ∀ v ∈ v?, s.isAllocated v = true := by
  refine h.map hs fun v t hv w hw => ?_
  cases hw
  exact hv

/-- **Calls of a builder**, where the outputs of a `ret` are values. -/
theorem Call.give_runs {call : Call}
    (houtputs : ∀ outputs, call = .ret outputs → ∀ v ∈ outputs, b.store.isAllocated v = true) :
    b.Adds (call.give b) fun v? s => ∀ v ∈ v?, s.isAllocated v = true := by
  cases call with
  | int ty value => exact some_runs hs (int_runs hs value)
  | double x => exact some_runs hs (double_runs hs x)
  | unary op x => exact some_runs hs (unary_runs hs op)
  | binary op x y => exact some_runs hs (binary_runs hs op)
  | compare test x y => exact some_runs hs (compare_runs hs test)
  | ret outputs => exact (emit_runs (houtputs outputs rfl)).map hs fun _ _ _ => nofun

theorem Call.run_runs {call : Call}
    (houtputs : ∀ outputs, call = .ret outputs → ∀ v ∈ outputs, b.store.isAllocated v = true) :
    b.Adds (call.run b) fun _ _ => True := by
  rw [call.run_eq_discard]
  exact (call.give_runs hs houtputs).map hs fun _ _ _ => trivial

end

end Builder

/-! ## Expansions -/

namespace Template

variable {b : Builder} {x y : ValueId} {ty : Ty} {temps : List ValueId}

/-- A value that a builder accepts is one. -/
theorem isAllocated_of_adopt {v v' : ValueId} (h : b.adopt v = .ok v') :
    v' = v ∧ b.store.isAllocated v = true := by
  obtain ⟨visible, hvisible, hok⟩ := bind_eq_ok.1 h
  have hvisible := lift_eq_ok.1 hvisible
  cases visible with
  | false => cases hok
  | true =>
    cases hok
    refine ⟨rfl, ?_⟩
    cases hv : b.store.isAllocated v with
    | true => rfl
    | false => simp [Builder.isVisible, hv, pure, Except.pure] at hvisible

theorem adopt_runs {v : ValueId} : b.Adds ((Edit.read fun b => b.adopt v : Edit Builder BuildError _) b)
    fun v s => s.isAllocated v = true :=
  .read fun v' hv' => by
    obtain ⟨rfl, hv⟩ := isAllocated_of_adopt hv'
    exact hv

variable (hs : b.store.Consistent) (hx : b.store.isAllocated x = true)
  (hy : b.store.isAllocated y = true) (htemps : ∀ v ∈ temps, b.store.isAllocated v = true)
include hs hx hy htemps

theorem Operand.emit_runs (a : Operand) :
    b.Adds (a.emit x y ty temps b) fun v s => s.isAllocated v = true := by
  cases a with
  | x => exact .pure hx
  | y => exact .pure hy
  | lit value => exact Builder.int_runs hs value
  | tmp step =>
    rw [Operand.emit]
    refine .read fun v hv => ?_
    split at hv
    · next hstep =>
      cases hv
      exact htemps _ (List.mem_of_getElem? hstep)
    · cases hv

theorem Step.emit_runs (step : Step) :
    b.Adds (step.emit x y ty temps b) fun v s => s.isAllocated v = true := by
  cases step with
  | unary op a =>
    exact (Operand.emit_runs hs hx hy htemps a).bind hs fun _ _ hs' _ _ => Builder.unary_runs hs' op
  | binary op a a' =>
    refine (Operand.emit_runs hs hx hy htemps a).bind hs fun v b' hs' hin _ => ?_
    refine (Operand.emit_runs hs' (hin.isAllocated hx) (hin.isAllocated hy)
      (fun v hv => hin.isAllocated (htemps v hv)) a').bind hs' fun _ _ hs'' _ _ => ?_
    exact Builder.binary_runs hs'' op

theorem emitSteps_runs (steps : List Step) :
    b.Adds (emitSteps x y ty steps temps b) fun temps s => ∀ v ∈ temps, s.isAllocated v = true := by
  induction steps generalizing b temps with
  | nil => exact .pure htemps
  | cons step rest ih =>
    refine (Step.emit_runs hs hx hy htemps step).bind hs fun v b' hs' hin hv => ?_
    refine ih hs' (hin.isAllocated hx) (hin.isAllocated hy) fun w hw => ?_
    rcases List.mem_append.1 hw with hold | hnew
    · exact hin.isAllocated (htemps w hold)
    · obtain rfl := List.mem_singleton.1 hnew
      exact hv

omit hx hy htemps in
/-- **A template** is emitted for values and gives one. -/
theorem emit_runs (t : Template) : b.Adds (t.emit x y ty b) fun v s => s.isAllocated v = true := by
  refine adopt_runs.bind hs fun x b₁ hs₁ _ hx => ?_
  refine adopt_runs.bind hs₁ fun y b₂ hs₂ hin hy => ?_
  refine (emitSteps_runs hs₂ (hin.isAllocated hx) hy (List.forall_mem_nil _) t.steps).bind hs₂
    fun temps b₃ _ hin' htemps => .pure ?_
  cases hlast : temps.getLast? with
  | none => exact (hin.trans hin').isAllocated hx
  | some v => exact htemps v (List.mem_of_getLast? hlast)

end Template

namespace Store

variable {s : Store} {c : Catalog} {o : OpId} {index : Nat}

theorem build_runs {point : InsertPoint} {calls : Edit Builder BuildError α}
    {answers : α → Store → Prop}
    (h : (Builder.start s point).Adds (calls (Builder.start s point)) answers) :
    (Store.build point calls s).Runs Change.Growing id s fun out t => answers out.1 t := by
  unfold Store.build
  cases hcalls : calls (Builder.start s point) with
  | done a b =>
    rw [hcalls] at h
    exact h
  | failed e b =>
    rw [hcalls] at h
    exact h
  | fault f => trivial

/-- **An expansion** gives a value of the store. -/
theorem expand_runs (hs : s.Consistent) : (Store.expand c o index s).Runs Change.Growing id s
    fun e t => t.isAllocated e.result = true := by
  refine .ask fun operator => .ask fun template => .ask fun (x, y, ty) => .ask fun point => ?_
  refine ((build_runs (Template.emit_runs hs template)).mapError _).bind hs ?_
  exact fun (result, emitted) s' _ _ hresult => .pure hresult

end Store

namespace Bench

variable {γ : Type} {b : Bench γ} {c : Catalog} {o : OpId} {allowed : Store → Change → Prop}

theorem onStore_runs {m : Edit Store ε α} {answers : α → Store → Prop}
    (h : (m b.store).Runs allowed id b.store answers) :
    (onStore m b).Runs allowed Bench.store b.store answers := by
  obtain ⟨s, source⟩ := b
  unfold onStore
  dsimp only at h ⊢
  cases hm : m s with
  | done a t =>
    rw [hm] at h
    exact h
  | failed e t =>
    rw [hm] at h
    exact h
  | fault f => trivial

theorem drawing_runs (draw : γ → α × γ) :
    (drawing draw b : Outcome (Bench γ) ε α).Runs allowed Bench.store b.store fun _ _ => True :=
  ⟨.refl, trivial⟩

theorem expand_runs [RandomSource γ] (hs : b.store.Consistent) :
    (Bench.expand c o b).Runs Change.Growing Bench.store b.store
      fun e t => t.isAllocated e.result = true := by
  refine .ask fun operator => ?_
  by_cases hnone : (c.templates operator).length = 0
  · rw [if_pos hnone]
    exact .fail _
  · rw [if_neg hnone]
    exact (drawing_runs _).bind hs fun index b' hs' _ _ => onStore_runs (Store.expand_runs hs')

end Bench

/-! ## Texts -/

namespace Listing

variable {s : Store} {p : Program} {line : Line} {names : Names}

/-- All that a reading leaves was reached by careful changes which redirect nothing. -/
abbrev Adds (s : Store) (outcome : Outcome Store ReadError α) (answers : α → Store → Prop) : Prop :=
  outcome.Runs Change.Growing id s answers

/-- The values known by name are values of the store. -/
def Names.Allocated (names : Names) (s : Store) : Prop :=
  ∀ entry ∈ names, s.isAllocated entry.2 = true

theorem check_runs {result : Except ReadError α} {answers : α → Store → Prop}
    (h : ∀ a, result = .ok a → answers a s) : Adds s (check result s) answers := by
  cases result with
  | ok a => exact .pure (h a rfl)
  | error e => exact .fail e

/-- An edit that checks something first, whatever comes of it. -/
theorem check_bind_runs {result : Except ReadError α} {next : α → Edit Store ReadError β}
    {answers : β → Store → Prop} (h : ∀ a, Adds s (next a s) answers) :
    Adds s ((check result >>= next) s) answers := by
  cases result with
  | ok a => exact h a
  | error e => exact .fail e

variable (hs : s.Consistent)
include hs

theorem call_runs {offset : Nat} {calls : Edit Builder BuildError α} {answers : α → Store → Prop}
    (h : (Builder.start s (.atEnd p.entry)).Adds (calls (Builder.start s (.atEnd p.entry))) answers) :
    Adds s (call p offset calls s) answers :=
  ((build_runs h).mapError _).bind hs fun (_, _) _ _ _ ha => .pure ha

theorem Line.emit_runs {operands : List ValueId} (hoperands : ∀ v ∈ operands, s.isAllocated v = true)
    (annotated? : Option Ty) : Adds s (line.emit p operands annotated? s)
      fun v? t => ∀ v ∈ v?, t.isAllocated v = true := by
  rw [line.emit_eq]
  cases horder : line.order operands annotated? with
  | error e => exact .fail e
  | ok order =>
    refine call_runs hs (Builder.Call.give_runs hs fun outputs houtputs v hv => hoperands v ?_)
    refine (Line.order_eq_ok.1 horder).operands_subset v ?_
    rw [houtputs]
    exact hv

omit hs in
theorem Line.bindResult_runs (hnames : names.Allocated s) (annotated? : Option Ty)
    {v? : Option ValueId} (hv : ∀ v, v? = some v → s.isAllocated v = true) :
    Adds s (line.bindResult names annotated? v? s) Names.Allocated := by
  unfold Line.bindResult
  cases v? with
  | none =>
    cases line.result? with
    | none => exact .pure hnames
    | some name => exact .fail _
  | some v =>
    cases line.result? with
    | none => exact .fail _
    | some name =>
      refine .ask fun ty => ?_
      cases annotated?.filter (· ≠ ty) with
      | some annotated => exact .fail _
      | none =>
        dsimp only
        split
        · exact .fail _
        · exact .pure (List.forall_mem_cons.2 ⟨hv v rfl, hnames⟩)

theorem Line.assemble_runs (hnames : names.Allocated s) :
    Adds s (line.assemble p names s) Names.Allocated := by
  have hresolved : Adds s (check (line.operands.mapM (names.resolve line.offset)) s)
      fun operands t => ∀ v ∈ operands, t.isAllocated v = true := by
    refine check_runs fun operands hoperands v hv => ?_
    obtain ⟨name, -, hname⟩ := exists_of_mem_mapM hoperands hv
    exact hnames _ (resolve_ok hname)
  refine hresolved.bind hs fun operands s₁ hs₁ hin₁ hoperands => ?_
  refine check_bind_runs fun annotated? => ?_
  refine (Line.emit_runs hs₁ hoperands annotated?).bind hs₁ fun v? s₂ _ hin₂ hv => ?_
  exact Line.bindResult_runs (fun entry hentry =>
    (hin₁.trans hin₂).isAllocated (hnames entry hentry)) annotated? hv

theorem assembleLines_runs (lines : List Line) (hnames : names.Allocated s) :
    Adds s (assembleLines p lines names s) fun _ _ => True := by
  induction lines generalizing s names with
  | nil => exact .pure trivial
  | cons line rest ih =>
    exact (Line.assemble_runs hs hnames).bind hs fun names' s' hs' _ hnames' => ih hs' hnames'

theorem assemble_runs (listing : Listing) : Adds s (listing.assemble s) fun _ _ => True := by
  refine check_bind_runs fun tys => ?_
  have hcreate : Adds s (Edit.update (fun s => Program.create s listing.header.name tys) s)
      fun _ _ => True :=
    ⟨.single (.createBlock tys []) ⟨⟨rfl, fun _ hv => hv.elim⟩, fun _ hv => hv⟩ rfl, trivial⟩
  refine hcreate.bind hs fun p s₁ hs₁ _ _ => ?_
  have hinputs : Adds s₁ (Edit.read (fun s => .ok (p.inputs s)) s₁)
      fun inputs t => ∀ v ∈ inputs, t.isAllocated v = true := by
    refine .read fun inputs hok v hv => ?_
    cases hok
    exact hs₁.owned.isAllocated_of_mem_args hv
  refine hinputs.bind hs₁ fun inputs s₂ hs₂ _ hinputs => ?_
  have hnames : Adds s₂ (check (nameParams ((listing.header.params.map (·.1)).zip inputs) []) s₂)
      Names.Allocated := by
    refine check_runs fun names hok entry hentry => ?_
    have hparam := (nameParams_mem hok entry hentry).resolve_left List.not_mem_nil
    exact hinputs _ (List.of_mem_zip hparam).2
  refine hnames.bind hs₂ fun names s₃ hs₃ _ hnames => ?_
  exact (assembleLines_runs hs₃ listing.lines hnames).bind hs₃ fun _ _ _ _ _ => .pure trivial

end Listing

/-- **Reading a text.** -/
theorem Program.read_runs {s : Store} (hs : s.Consistent) (text : String) :
    (Program.read text s).Runs Change.Growing id s fun _ _ => True :=
  Listing.check_bind_runs fun listing => Listing.assemble_runs hs listing

/-! ## All of them -/

/-- What a call of a builder, a reading of a text or an expansion makes of a store, whether it is
done or fails. -/
inductive Store.Grows : Store → Store → Prop
  /-- The outputs of a `ret` are values. The types of all other operands are asked for. -/
  | call {b b' : Builder} {call : Builder.Call}
      (houtputs : ∀ outputs, call = .ret outputs → ∀ v ∈ outputs, b.store.isAllocated v = true)
      (h : (call.run b).state? = some b') : Grows b.store b'.store
  | read {s s' : Store} {text : String} (h : (Program.read text s).state? = some s') : Grows s s'
  | expand {s s' : Store} {c : Catalog} {o : OpId} {index : Nat}
      (h : (Store.expand c o index s).state? = some s') : Grows s s'
  | expandRandom {γ : Type} [RandomSource γ] {b b' : Bench γ} {c : Catalog} {o : OpId}
      (h : (Bench.expand c o b).state? = some b') : Grows b.store b'.store

/-- **All that these edits leave** was reached by careful changes which redirect nothing. -/
theorem Store.Grows.run {s s' : Store} (h : s.Grows s') (hs : s.Consistent) :
    Run Change.Growing s s' := by
  cases h with
  | call houtputs h => exact (Builder.Call.run_runs hs houtputs).run h
  | read h => exact (Program.read_runs hs _).run h
  | expand h => exact (Store.expand_runs hs).run h
  | expandRandom h => exact (Bench.expand_runs hs).run h

end Mba
