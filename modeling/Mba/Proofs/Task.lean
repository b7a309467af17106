import Mba.Proofs.Listing.Loading
import Mba.Proofs.Listing.Rebuilding
import Mba.Proofs.Mutation.Behaviour
import Mba.Proofs.Program.Soundness
import Mba.Task

/-!
# Mutating keeps what a text computes

The text that a mutation task gives is accepted again, and both texts run alike on all arguments.

Results:
* `Rewrites.nanFree`: replacements make no double constants.
* `Loaded.run`: a loaded program on arguments of its input types gives outputs or divides by zero.
* `rounds_done`: rounds come to their end where no operator lacks templates.
* `mutateOn_done`: the check after the rounds passes.
* `mutate_accepted`: mutating a text succeeds, and what it gives runs as the text does.
-/

namespace Mba

/-! ## Double constants -/

namespace Store

variable {s s' : Store} {p : Program} {c : Catalog}

theorem Grown.nanFree {fresh : List OpId} (h : s.Grown s' p fresh) (hs : s.NaNFree) :
    s'.NaNFree := by
  intro d hd bits hbits
  obtain ⟨i, hi⟩ := Array.getElem?_of_mem hd
  by_cases hold : i < s.ops.size
  · rw [h.ops i hold] at hi
    exact hs d (Array.mem_of_getElem? hi) bits hbits
  · have hlt := (Array.getElem?_eq_some_iff.1 hi).1
    have hsize := h.size_ops
    have hk : i - s.ops.size < fresh.length := by omega
    obtain ⟨hindex, d', hd', hwords, -⟩ := h.numbers _ _ (List.getElem?_eq_getElem hk)
    have hplace : s.ops.size + (i - s.ops.size) = i := by omega
    rw [hindex, hplace, hi] at hd'
    cases hd'
    rw [hbits] at hwords
    cases hwords

theorem Rebound.nanFree {b : BlockId} {o : OpId} {old new : ValueId}
    (h : s.Rebound b o old new s') (hs : s.NaNFree) : s'.NaNFree := by
  intro d hd bits hbits
  obtain ⟨i, hi⟩ := Array.getElem?_of_mem hd
  obtain ⟨d', hd', hopcode⟩ : ∃ d', s.ops[i]? = some d' ∧ d'.opcode = d.opcode := by
    rw [h.ops] at hi
    split at hi
    all_goals
      obtain ⟨d', hd', rfl⟩ := Option.map_eq_some_iff.1 hi
      exact ⟨d', hd', rfl⟩
  exact hs d' (Array.mem_of_getElem? hd') bits (hopcode.trans hbits)

/-- **Replacements make no double constants.** -/
theorem Rewrites.nanFree (h : Rewrites c p s s') (hs : s.NaNFree) : s'.NaNFree := by
  induction h with
  | refl s => exact hs
  | step _ r _ ih => exact ih (r.rebound.nanFree (r.emission.grown.nanFree hs))

/-! ## Loaded programs -/

/-- What is known of a program that was read and found valid. -/
structure Loaded (s : Store) (p : Program) : Prop where
  mutable : s.Mutable p
  nanFree : s.NaNFree
  name : Listing.Scanner.isIdentifier p.name.toList = true

theorem Loaded.rewrites (h : s.Loaded p) (hrewrites : Rewrites c p s s') : s'.Loaded p :=
  ⟨hrewrites.mutable h.mutable, hrewrites.nanFree h.nanFree, h.name⟩

/-- Replacements keep the types of the inputs. -/
theorem Rewrites.argTys (h : Rewrites c p s s') (b : BlockId) : s'.argTys b = s.argTys b := by
  induction h with
  | refl s => rfl
  | step _ r _ ih => rw [ih, r.rebound.owners.argTys, r.emission.grown.argTys]

theorem Loaded.inputTys (h : s.Loaded p) : p.inputTys s = .ok (s.argTys p.entry) := by
  obtain ⟨ops, hv⟩ := h.mutable.valid
  exact hv.inputTys

/-- **A loaded program on arguments of its input types** gives outputs or divides by zero. -/
theorem Loaded.run (h : s.Loaded p) {args : List Scalar}
    (hargs : args.map Scalar.ty = s.argTys p.entry) :
    ∃ behaviour, s.behaviour p args = .ok behaviour := by
  obtain ⟨ops, hv⟩ := h.mutable.valid
  rw [behaviour]
  rcases hv.run_outcome h.mutable.consistent.owned hargs with
    ⟨outputs, last, d, hrun, -⟩ | ⟨o, -, hrun, -⟩
  all_goals
    rw [hrun]
    exact ⟨_, rfl⟩

theorem Rewrites.behaviour_eq (hsound : c.Sound) (h : Rewrites c p s s') (args : List Scalar) :
    s'.behaviour p args = s.behaviour p args := by
  rw [behaviour, behaviour, h.run_eq hsound]

end Store

open Store

/-- The texts that are read as a well-formed program. -/
def Program.Accepted (text : String) : Prop :=
  ∃ p s, Program.load text empty = .done p s

theorem Program.load_eq_done {text : String} {s s' : Store} {p : Program} :
    Program.load text s = .done p s' ↔
      Program.read text s = .done p s' ∧ s'.validate p = .ok [] := by
  constructor
  · intro h
    obtain ⟨p', s₁, hread, hrest⟩ := Edit.bind_eq_done.1 h
    obtain ⟨violations, s₂, hvalidate, hend⟩ := Edit.bind_eq_done.1 hrest
    obtain ⟨hok, rfl⟩ := Edit.read_eq_done.1 hvalidate
    split at hend
    · next hempty =>
      cases hend
      rw [List.isEmpty_iff.1 hempty] at hok
      exact ⟨Edit.mapError_eq_done.1 hread, lift_eq_ok.1 hok⟩
    · cases hend
  · rintro ⟨hread, hvalidate⟩
    have hviolations : (Edit.read fun s => s.validate p : Edit Store TaskError (List Violation)) s' =
        .done [] s' := Edit.read_done (lift_eq_ok.2 hvalidate)
    refine (Edit.bind_done (Edit.mapError_done hread TaskError.read)).trans ?_
    exact Edit.bind_done hviolations

/-- **What loading a text leaves.** -/
theorem Program.load_done {text : String} {s : Store} {p : Program} (hnan : NaNFreeText text)
    (h : Program.load text empty = .done p s) : s.Loaded p := by
  obtain ⟨hread, hvalidate⟩ := Program.load_eq_done.1 h
  obtain ⟨hname, ⟨done, hbuilt⟩, hnanFree⟩ := Program.read_done consistent_empty hread
  have hempty : empty.NaNFree := fun d hd => absurd hd (Array.not_mem_empty d)
  exact ⟨.of_validate hbuilt.consistent hbuilt.allocated hvalidate, hnanFree hempty hnan, hname⟩

/-- **The text of a loaded program is loaded again**, as a copy. -/
theorem Store.Loaded.print {s : Store} {p : Program} (h : s.Loaded p) :
    ∃ text p' s', p.print s = .ok text ∧ Program.load text empty = .done p' s' ∧
      s'.Consistent ∧ (∃ ops, s'.Valid p' ops) ∧ CopyOf s p s' p' := by
  obtain ⟨ops, hv⟩ := h.mutable.valid
  obtain ⟨text, hprint, hread⟩ :=
    read_print h.mutable.consistent.owned hv.listed hv.flow h.name
  obtain ⟨p', s', ops', hread, hbuilt, hcopy⟩ := hread empty consistent_empty
  have hv' : s'.Valid p' ops' := hbuilt.valid (hcopy.ending hv.listed hbuilt.listed hv.ending)
  have hvalidate : s'.validate p' = .ok [] :=
    (validate_eq_nil_iff hbuilt.consistent p').2 ⟨ops', hv'⟩
  exact ⟨text, p', s', hprint, Program.load_eq_done.2 ⟨hread, hvalidate⟩, hbuilt.consistent,
    ⟨ops', hv'⟩, hcopy⟩

/-! ## Recorded cases -/

section Random

variable {γ : Type} [RandomSource γ] {s : Store} {p : Program}

theorem Scalar.ty_random (ty : Ty) (source : γ) : (Scalar.random ty source).1.ty = ty := by
  cases ty <;> rfl

theorem Scalar.map_ty_randomList (tys : List Ty) (source : γ) :
    (Scalar.randomList tys source).1.map Scalar.ty = tys := by
  induction tys generalizing source with
  | nil => rfl
  | cons ty rest ih =>
    show (Scalar.random ty source).1.ty :: (Scalar.randomList rest _).1.map Scalar.ty = _
    rw [Scalar.ty_random, ih]

namespace Store

/-- What is recorded is how the program behaves. -/
theorem recordFor_ok {tys : List Ty}
    (hruns : ∀ args, args.map Scalar.ty = tys → ∃ behaviour, s.behaviour p args = .ok behaviour)
    (count : Nat) (source : γ) :
    ∃ found source', s.recordFor p tys count source = .ok (found, source') ∧
      ∀ case ∈ found, s.behaviour p case.inputs = .ok case.expected := by
  induction count generalizing source with
  | zero => exact ⟨[], source, rfl, nofun⟩
  | succ count ih =>
    obtain ⟨behaviour, hbehaviour⟩ := hruns _ (Scalar.map_ty_randomList tys source)
    obtain ⟨found, source', hrest, hfound⟩ := ih (Scalar.randomList tys source).2
    refine ⟨⟨(Scalar.randomList tys source).1, behaviour⟩ :: found, source', ?_, ?_⟩
    · refine bind_eq_ok.2 ⟨behaviour, hbehaviour, ?_⟩
      exact bind_eq_ok.2 ⟨_, hrest, rfl⟩
    · exact List.forall_mem_cons.2 ⟨hbehaviour, hfound⟩

theorem Loaded.record (h : s.Loaded p) (count : Nat) (source : γ) :
    ∃ found source', s.record p count source = .ok (found, source') ∧
      ∀ case ∈ found, s.behaviour p case.inputs = .ok case.expected := by
  obtain ⟨found, source', hrecord, hfound⟩ :=
    recordFor_ok (fun args hargs => h.run hargs) count source
  exact ⟨found, source', bind_eq_ok.2 ⟨_, h.inputTys, hrecord⟩, hfound⟩

end Store

end Random

namespace Task

/-! ## Mutating a loaded program -/

section Random

variable {γ : Type} [RandomSource γ] {c : Catalog} {s : Store} {p : Program}

/-- **Rounds come to their end** where no operator lacks templates. -/
theorem rounds_done (hfull : ∀ op, ¬ Bench.Lacks c op) (config : MutationConfig) (count : Nat)
    {b : Bench γ} (hb : b.store.Mutable p) :
    ∃ reports b', rounds c config p count b = .done reports b' ∧ Rewrites c p b.store b'.store := by
  induction count generalizing b with
  | zero => exact ⟨[], b, rfl, .refl _⟩
  | succ count ih =>
    obtain ⟨outcome, hend, houtcome⟩ := Bench.mutateProgram_outcome c config.maxPicks hb
    have hround : Bench.mutateProgram c config p b = outcome := houtcome config.validate
    cases hend with
    | idle _ => exact ⟨[], b, Edit.bind_done hround, .refl _⟩
    | @mutated report b' _ rewrites =>
      obtain ⟨reports, b'', hrest, hrewrites⟩ := ih (rewrites.mutable hb)
      refine ⟨report :: reports, b'', ?_, rewrites.trans hrewrites⟩
      exact (Edit.bind_done hround).trans (Edit.bind_done hrest)
    | stopped _ lacks _ => exact absurd lacks (hfull _)

/-- The standard catalog has templates for all operators for which identities are known. -/
theorem not_lacks_standard (op : BinaryOp) : ¬ Bench.Lacks Catalog.standard op := by
  rintro ⟨hsupported, hempty⟩
  have hfull : op.isSupported = true → (Catalog.standard.templates op).isEmpty = false := by
    cases op <;> decide
  rw [hempty] at hfull
  cases hfull hsupported

/-- **The check after the rounds passes**, and the program left is the old one rewritten. -/
theorem mutateOn_done (h : s.Loaded p) (options : MutateOptions) (source : γ) :
    ∃ result b', mutateOn p options ⟨s, source⟩ = .done result b' ∧
      p.print b'.store = .ok result.program ∧ Rewrites Catalog.standard p s b'.store := by
  obtain ⟨found, source', hrecord, hfound⟩ := h.record options.check source
  obtain ⟨reports, b', hrounds, hrewrites⟩ := rounds_done (b := ⟨s, source'⟩) not_lacks_standard
    options.config options.rounds h.mutable
  obtain ⟨text, -, -, hprint, -⟩ := (h.rewrites hrewrites).print
  have hcheck : b'.store.check p found = .ok none := by
    rw [check_eq_none_iff]
    intro case hcase
    rw [hrewrites.behaviour_eq Catalog.sound_standard, hfound case hcase]
  refine ⟨⟨text, reports, found.length⟩, b', ?_, hprint, hrewrites⟩
  have hpass : (Edit.read fun b => b.store.check p found :
      Edit (Bench γ) TaskError (Option Mismatch)) b' = .done none b' :=
    Edit.read_done (lift_eq_ok.2 hcheck)
  have htext : (Edit.read fun b => p.print b.store : Edit (Bench γ) TaskError String) b' =
      .done text b' := Edit.read_done (lift_eq_ok.2 hprint)
  refine (Edit.bind_done (show _ = Outcome.done found (⟨s, source'⟩ : Bench γ) from
    Edit.step_done (by rw [hrecord]; rfl))).trans ?_
  refine (Edit.bind_done (Edit.mapError_done hrounds TaskError.mutation)).trans ?_
  refine (Edit.bind_done hpass).trans ?_
  exact Edit.bind_done htext

end Random

/-! ## Running texts -/

variable {s : Store} {p : Program}

/-- Two runs end alike: with the same outputs, with the same complaint about the arguments, or both
at a division by zero. -/
inductive SameAnswer :
    Attempt TaskError (List Scalar) → Attempt TaskError (List Scalar) → Prop
  | outputs (values : List Scalar) : SameAnswer (.ok values) (.ok values)
  | argumentCount (expected found : Nat) :
      SameAnswer (Attempt.fail (.eval (.argumentCount expected found)))
        (Attempt.fail (.eval (.argumentCount expected found)))
  | argument (index : Nat) (text : String) (ty : Ty) :
      SameAnswer (Attempt.fail (.argument index text ty)) (Attempt.fail (.argument index text ty))
  | divisionByZero (o o' : OpId) :
      SameAnswer (Attempt.fail (.eval (.divisionByZero o)))
        (Attempt.fail (.eval (.divisionByZero o')))

theorem ty_of_ofSigned? {w : Width} {value : Int} {x : Scalar}
    (h : Scalar.ofSigned? w value = some x) : x.ty = .int w := by
  unfold Scalar.ofSigned? at h
  dsimp only at h
  split at h
  · cases h
    rfl
  · cases h

theorem ty_of_readInt? {w : Width} {text : List Char} {x : Scalar}
    (h : Scalar.readInt? w text = some x) : x.ty = .int w := by
  unfold Scalar.readInt? at h
  split at h
  next negative magnitude _ =>
  split at h
  · obtain ⟨n, -, hn⟩ := Option.bind_eq_some_iff.1 h
    split at hn
    · exact ty_of_ofSigned? hn
    · split at hn
      · cases hn
        rfl
      · cases hn
  · obtain ⟨n, -, hn⟩ := Option.bind_eq_some_iff.1 h
    exact ty_of_ofSigned? hn

/-- A value that is read has the type it is read for. -/
theorem ty_of_read? {ty : Ty} {text : String} {x : Scalar} (h : Scalar.read? ty text = some x) :
    x.ty = ty := by
  cases ty with
  | int w => exact ty_of_readInt? h
  | double =>
    obtain ⟨y, -, rfl⟩ := Option.map_eq_some_iff.1 h
    rfl
  | bool =>
    unfold Scalar.read? at h
    dsimp only at h
    split at h
    · cases h
      rfl
    · split at h
      · cases h
        rfl
      · cases h

/-- The arguments that are read have the types they are read for, and the first one that cannot be
read is named. -/
theorem readArguments_spec (pairs : List (Ty × String)) (index : Nat) :
    (∃ values, readArguments pairs index = .ok values ∧
        values.map Scalar.ty = pairs.map (·.1)) ∨
      ∃ index' text ty, readArguments pairs index = .error (.argument index' text ty) := by
  induction pairs generalizing index with
  | nil => exact .inl ⟨[], rfl, rfl⟩
  | cons pair rest ih =>
    obtain ⟨ty, text⟩ := pair
    unfold readArguments
    cases hx : Scalar.read? ty text with
    | none => exact .inr ⟨index, text, ty, rfl⟩
    | some x =>
      rcases ih (index + 1) with ⟨values, hvalues, htys⟩ | ⟨index', text', ty', herror⟩
      · refine .inl ⟨x :: values, by rw [hvalues]; rfl, ?_⟩
        rw [List.map_cons, List.map_cons, htys, ty_of_read? hx]
      · exact .inr ⟨index', text', ty', by rw [herror]; rfl⟩

/-- A run on another number of arguments than the program has inputs. -/
theorem runOn_of_length_ne {tys : List Ty} (htys : p.inputTys s = .ok tys) {args : List String}
    (hlength : tys.length ≠ args.length) :
    runOn p args s = Attempt.fail (.eval (.argumentCount tys.length args.length)) := by
  rw [runOn, htys]
  exact if_pos hlength

/-- A run on arguments that cannot be read. -/
theorem runOn_of_error {tys : List Ty} (htys : p.inputTys s = .ok tys) {args : List String}
    (hlength : tys.length = args.length) {e : TaskError}
    (h : readArguments (tys.zip args) 0 = .error e) : runOn p args s = Attempt.fail e := by
  rw [runOn, htys]
  refine (if_neg (not_not_intro hlength)).trans ?_
  rw [h]

/-- A run on arguments that can be read. -/
theorem runOn_of_ok {tys : List Ty} (htys : p.inputTys s = .ok tys) {args : List String}
    (hlength : tys.length = args.length) {values : List Scalar}
    (h : readArguments (tys.zip args) 0 = .ok values) :
    runOn p args s = mapError .eval (s.run p values) := by
  rw [runOn, htys]
  refine (if_neg (not_not_intro hlength)).trans ?_
  rw [h]

/-- **Two programs with the same input types run alike** on arguments given as texts, if they do on
arguments of these types. -/
theorem sameAnswer_runOn {s' : Store} {p' : Program} {tys : List Ty}
    (htys : p.inputTys s = .ok tys) (htys' : p'.inputTys s' = .ok tys)
    (hruns : ∀ args, args.map Scalar.ty = tys → SameEnd (s.run p args) (s'.run p' args))
    (args : List String) : SameAnswer (runOn p args s) (runOn p' args s') := by
  by_cases hlength : tys.length = args.length
  case neg =>
    rw [runOn_of_length_ne htys hlength, runOn_of_length_ne htys' hlength]
    exact .argumentCount _ _
  case pos =>
    rcases readArguments_spec (tys.zip args) 0 with
      ⟨values, hvalues, hty⟩ | ⟨index, text, ty, herror⟩
    · rw [runOn_of_ok htys hlength hvalues, runOn_of_ok htys' hlength hvalues]
      have hzip : (tys.zip args).map (·.1) = tys := List.map_fst_zip (by omega)
      have hend := hruns values (hty.trans hzip)
      generalize s.run p values = answer, s'.run p' values = answer' at hend
      cases hend with
      | ok outputs => exact .outputs outputs
      | divisionByZero o o' => exact .divisionByZero o o'
    · rw [runOn_of_error htys hlength herror, runOn_of_error htys' hlength herror]
      exact .argument index text ty

theorem run_eq_runOn {text : String} (h : Program.load text empty = .done p s)
    (args : List String) : run text args = runOn p args s := by
  have hrun : (do
      let p ← Program.load text
      Edit.read (runOn p args) : Edit Store TaskError (List Scalar)) empty =
        Edit.read (runOn p args) s := Edit.bind_done h
  rw [run, hrun, Edit.read]
  rcases runOn p args s with (f | e) | values <;> rfl

/-! ## Mutating a text -/

/-- **Mutating an accepted text succeeds and keeps what it computes**, whatever is drawn. The new
text is accepted too, and runs as the old one does on all arguments. -/
theorem mutate_accepted {γ : Type} [RandomSource γ] (ofSeed : UInt64 → γ) {text : String}
    (haccepted : Program.Accepted text) (hnan : NaNFreeText text) (options : MutateOptions) :
    ∃ result, mutate ofSeed text options = .ok result ∧ Program.Accepted result.program ∧
      ∀ args, SameAnswer (run text args) (run result.program args) := by
  obtain ⟨p, s, hload⟩ := haccepted
  have hs := Program.load_done hnan hload
  obtain ⟨result, b', hmutate, hprint, hrewrites⟩ :=
    mutateOn_done hs options (ofSeed options.seed)
  have hs' := hs.rewrites hrewrites
  obtain ⟨text', p', s', hprint', hload', hconsistent, ⟨ops', hv'⟩, hcopy⟩ := hs'.print
  obtain rfl : text' = result.program := Except.ok.inj (hprint'.symm.trans hprint)
  refine ⟨result, ?_, ⟨p', s', hload'⟩, fun args => ?_⟩
  · have htask : (do
        let p ← Bench.onStore (Program.load text)
        mutateOn p options : Edit (Bench γ) TaskError MutateResult)
          ⟨empty, ofSeed options.seed⟩ = .done result b' :=
      (Edit.bind_done (Bench.onStore_done hload _)).trans hmutate
    rw [mutate, htask]
    rfl
  · rw [run_eq_runOn hload, run_eq_runOn hload']
    have htys : p.inputTys s = .ok (b'.store.argTys p.entry) := by
      rw [hs.inputTys, hrewrites.argTys]
    have htys' : p'.inputTys s' = .ok (b'.store.argTys p.entry) := by
      rw [hv'.inputTys, hcopy.argTys]
    refine sameAnswer_runOn htys htys' (fun args hargs => ?_) args
    obtain ⟨ops, hv⟩ := hs'.mutable.valid
    have hend := hcopy.run hs'.mutable.consistent.owned hconsistent.owned hs'.nanFree hv hargs
    rwa [hrewrites.run_eq Catalog.sound_standard] at hend

/-- The text of a program that divides by the difference of its inputs. -/
def quotientText : String :=
  "program @quotient(%a: i8, %b: i8) \x7b
  %half = fconst 0.5
  %d = sub %a, %b
  %q = div %a, %d : i8
  return %q, %half
\x7d
"

theorem mutate_accepted_quotient :
    ∃ result,
      mutate ChaCha.ofSeed quotientText { seed := 7, rounds := 3, check := 2 } = .ok result ∧
      Program.Accepted result.program ∧
      run result.program ["7", "4"] = .ok [.int .w8 2, .double ⟨0x3fe0000000000000⟩] ∧
      ∃ o, run result.program ["7", "7"] = Attempt.fail (.eval (.divisionByZero o)) := by
  have haccepted : Program.Accepted quotientText := by
    have hload : (Program.load quotientText empty).done?.isSome = true := by decide +kernel
    obtain ⟨⟨p, s⟩, hdone⟩ := Option.isSome_iff_exists.1 hload
    exact ⟨p, s, Outcome.done?_eq_some_iff.1 hdone⟩
  have hnan : NaNFreeText quotientText := by
    have hliterals : (Listing.ofText quotientText).toOption.map
        (fun listing => listing.lines.map Listing.Line.literal?) =
        some [some (.double ⟨0x3fe0000000000000⟩), none, none, none] := by decide +kernel
    intro listing hlisting line hline x hx
    rw [hlisting] at hliterals
    have hmem : line.literal? ∈ listing.lines.map Listing.Line.literal? := List.mem_map_of_mem hline
    rw [show listing.lines.map Listing.Line.literal? = _ from Option.some.inj hliterals, hx] at hmem
    simp only [List.mem_cons, reduceCtorEq, List.not_mem_nil, or_false, Option.some.injEq,
      Listing.Literal.double.injEq] at hmem
    rw [hmem]
    decide
  obtain ⟨result, hmutate, hresult, hruns⟩ :=
    mutate_accepted ChaCha.ofSeed haccepted hnan { seed := 7, rounds := 3, check := 2 }
  refine ⟨result, hmutate, hresult, ?_, ?_⟩
  · have hrun := hruns ["7", "4"]
    have hold : run quotientText ["7", "4"] = .ok [.int .w8 2, .double ⟨0x3fe0000000000000⟩] := by
      decide +kernel
    rw [hold] at hrun
    generalize run result.program ["7", "4"] = answer at hrun
    cases hrun
    rfl
  · have hrun := hruns ["7", "7"]
    have hold : run quotientText ["7", "7"] = Attempt.fail (.eval (.divisionByZero ⟨2⟩)) := by
      decide +kernel
    rw [hold] at hrun
    generalize run result.program ["7", "7"] = answer at hrun
    cases hrun
    exact ⟨_, rfl⟩

end Task

end Mba
