import Mba.Proofs.Identities
import Mba.Proofs.Mutation.Round
import Mba.Random.ChaCha

/-!
# Replacements keep what a program computes

A run of the program and a run of the program with an operation replaced go through the same
environments, with the value of the template in the place of the result of the operation. The two
runs agree in front of the operation, the template computes what the operation does, and behind it
every operation reads the same scalars under the other name.

Results:
* `Replacement.advance_fresh`: the template computes what the operation does.
* `Replacement.execute_back`: behind the operation, both executions end in the same way.
* `Replacement.run_eq`: the program gives the same outputs, or the same error, for all arguments.
* `run_mutateRounds`: so it does after any number of rounds with a sound catalog.
-/

namespace Mba

namespace Store

variable {s s' : Store} {p : Program} {o : OpId} {op : BinaryOp} {t : Template}

theorem mapM_get_rename {env env' : Env} {ρ : ValueId → ValueId} :
    ∀ (vs : List ValueId), (∀ v ∈ vs, env.get v = env'.get (ρ v)) →
      (vs.map ρ).mapM env'.get = vs.mapM env.get
  | [], _ => rfl
  | v :: vs, h => by
    rw [List.map_cons, List.mapM_cons, List.mapM_cons, h v List.mem_cons_self,
      mapM_get_rename vs fun v' hv' => h v' (List.mem_cons_of_mem _ hv')]

/-- A value of an integer type has an integer of its width. -/
theorem Typed.exists_int {env : Env} {v : ValueId} {w : Width} (h : s.Typed env v)
    (hty : s.values[v.index]?.map (·.ty) = some (.int w)) :
    ∃ a, env.get? v.index = some (.int w a) := by
  obtain ⟨x, hx, hxty⟩ := h
  rw [hty] at hxty
  cases x with
  | int w' a =>
    cases hxty
    exact ⟨a, hx⟩
  | double _ => cases hxty
  | bool _ => cases hxty

namespace Replacement

variable (r : Replacement s p o op t)

/-! ## In front of the operation -/

theorem inputs_eq : p.inputs r.result = p.inputs s := by
  rw [Program.inputs, Program.inputs, r.rebound.owners.args, r.emission.grown.args]

theorem valueTy_eq {v : ValueId} (hv : s.isAllocated v = true) :
    r.result.valueTy v = s.valueTy v := by
  rw [valueTy, valueTy, value, value, r.rebound.owners.values,
    r.emission.grown.values _ (of_decide_eq_true hv)]

/-- The operations up to the end of the template stay as they were emitted: none of them reads the
result of the operation. -/
theorem ops_front {o' : OpId} (ho' : o' ∈ r.before ++ r.fresh) :
    r.result.ops[o'.index]? = r.expanded.ops[o'.index]? := by
  have hsite := r.emission.site
  have hne : o'.index ≠ o.index := by
    intro heq
    have ho : o' = o := by cases o; cases o'; exact congrArg OpId.mk heq
    exact hsite.notMem (ho ▸ ho')
  obtain ⟨d, hd, hfits⟩ := (flow_append.1 hsite.valid.flow).1.fits ho'
  have hold : r.expanded.result? o = some r.old := by
    rw [result?_eq (r.emission.grown.ops_of_some r.entry_eq), r.result_eq]
  have hnot : r.old ∉ d.operands := fun hmem =>
    not_defines_of_notMem hsite.consistent.owned hold hsite.notMem (hfits.operands _ hmem)
  rw [r.rebound.ops, if_neg hne, hd, Option.map_some, Operation.rename_of_notMem _ hnot]

theorem ops_before {o' : OpId} (ho' : o' ∈ r.before) :
    r.result.ops[o'.index]? = s.ops[o'.index]? := by
  obtain ⟨d, hd, -⟩ := r.site.valid.entry (List.mem_append_left _ ho')
  rw [r.ops_front (List.mem_append_left _ ho'), r.emission.grown.ops_of_some hd, hd]

/-- **The template computes what the operation does**: where a run comes to the operation, a run of
the template comes to its end, gives its value the same scalar, and changes no value of before. -/
theorem advance_fresh (hsound : ∀ x y w, t.evaluate x y w = op.eval x y w) {env : Env}
    (henv : s.Settled p r.before env) :
    ∃ x env', compute o r.entry env = .ok (some x) ∧ r.result.advance r.fresh env = .ok env' ∧
      env'.get? r.new.index = some x ∧ ∀ i, i < s.values.size → env'.get? i = env.get? i := by
  obtain ⟨-, ⟨d, hd, hfits⟩, -⟩ := flow_append.1 r.site.valid.flow
  rw [r.entry_eq] at hd
  cases hd
  rw [List.nil_append] at hfits
  have hint : ∀ k ∈ r.known, k.1 ∈ r.entry.operands →
      ∃ a, env.get? k.1.index = some (.int r.width a) := by
    intro k hk hmem
    refine (henv.typed _ (hfits.operands _ hmem)).exists_int ?_
    have hlt := of_decide_eq_true (r.site.allocated.of_mem r.entry_eq hmem)
    rw [← r.emission.grown.values _ hlt, (r.emission.usable k hk).2]
  obtain ⟨a, ha⟩ := hint _ r.emission.inputs.1 (by simp [r.operands])
  obtain ⟨b, hb⟩ := hint _ r.emission.inputs.2 (by simp [r.operands])
  obtain ⟨env', hadvance, hkeep, -, hexact⟩ := r.emission.computed env a b ha hb
  refine ⟨.int r.width (r.width.wrap (t.onWords a b)), env', ?_, ?_,
    hexact _ r.computes r.isNew, hkeep⟩
  · have hvalue : operandValue r.entry env 0 = .ok (.int r.width a) :=
      operandValue_eq (by rw [r.operands]; rfl) ha
    have hvalue' : operandValue r.entry env 1 = .ok (.int r.width b) :=
      operandValue_eq (by rw [r.operands]; rfl) hb
    have happly : op.apply (.int r.width a) (.int r.width b) =
        .value (.int r.width (r.width.wrap (t.onWords a b))) := by
      rw [BinaryOp.apply, if_pos rfl, ← hsound, Template.evaluate_eq_wrap r.wellShaped]
    simp only [compute, r.opcode, hvalue, hvalue', bind, Except.bind, happly]
  · rw [← hadvance]
    exact advance_congr (fun o' ho' => r.ops_front (List.mem_append_right _ ho')) env

/-! ## Behind the operation -/

theorem opcode_ne_ret : r.entry.opcode ≠ .ret := by
  rw [r.opcode]
  exact Opcode.noConfusion

/-- The scalars that an environment gives to the values of the store, another gives to them with
`new` in place of `old`. -/
def Agree (s : Store) (old new : ValueId) (env env' : Env) : Prop :=
  ∀ v, s.isAllocated v = true → env.get? v.index = env'.get? (ValueId.rename old new v).index

/-- Setting another value of the store than `old` keeps environments in agreement. -/
theorem agree_set {env env' : Env} (h : Agree s r.old r.new env env') {v : ValueId}
    (hv : s.isAllocated v = true) (hne : v ≠ r.old) (x : Scalar) :
    Agree s r.old r.new (env.set v x) (env'.set v x) := by
  intro u hu
  have hrename : ValueId.rename r.old r.new v = v := if_neg hne
  have hiff : v = ValueId.rename r.old r.new u ↔ v = u := by
    have hlt := of_decide_eq_true hv
    have hnew := r.isNew
    rw [ValueId.rename]
    split
    · next hold =>
      subst hold
      refine ⟨fun heq => ?_, fun heq => absurd heq hne⟩
      rw [heq] at hlt
      omega
    · exact Iff.rfl
  rw [Env.get_set, Env.get_set]
  simp only [hiff, h u hu]

/-- What an operation reads are the same scalars. -/
theorem get_rename {done : List OpId} {env env' : Env} (henv : s.Settled p done env)
    (hagree : Agree s r.old r.new env env') {o' : OpId} {d : Operation}
    (hd : s.ops[o'.index]? = some d) (hfits : s.Fits p done d) :
    ∀ v ∈ d.operands, env.get v = env'.get (ValueId.rename r.old r.new v) := by
  intro v hv
  obtain ⟨x, hx, -⟩ := henv.typed v (hfits.operands v hv)
  have hx' := hagree v (r.site.allocated.of_mem hd hv)
  rw [Env.get_eq_ok_iff.2 hx, Env.get_eq_ok_iff.2 (hx'.symm.trans hx)]

/-- Only the last operation of the program is a `ret`. -/
theorem exists_ne_ret_front : ∀ o' ∈ r.before ++ r.fresh,
    ∃ d, r.result.ops[o'.index]? = some d ∧ d.opcode ≠ .ret := by
  intro o' ho'
  rcases List.mem_append.1 ho' with hbefore | hfresh
  · rw [r.ops_before hbefore]
    exact r.site.exists_ne_ret hbefore
  · obtain ⟨k, hk⟩ := List.getElem?_of_mem hfresh
    obtain ⟨-, d, hd, hwords, -⟩ := r.emission.grown.numbers k o' hk
    refine ⟨d, by rw [r.ops_front ho', hd], fun hret => ?_⟩
    rw [hret] at hwords
    cases hwords

/-- **Behind the operation, both executions end in the same way.** Where the operation is listed
again, it computes the same scalar again; the other program does not list it. -/
theorem execute_back {rest done : List OpId} (hflow : s.Flow p [] (done ++ rest)) (ho : o ∈ done)
    {env env' : Env} (henv : s.Settled p done env) (hagree : Agree s r.old r.new env env') :
    r.result.execute (rest.filter (· != o)) env' = s.execute rest env := by
  have howned := r.site.consistent.owned
  induction rest generalizing done env env' with
  | nil => rfl
  | cons o' rest ih =>
    obtain ⟨hdone, ⟨d, hd, hfits⟩, -⟩ := flow_append.1 hflow
    rw [List.nil_append] at hfits
    have hflow' : s.Flow p [] (done ++ [o'] ++ rest) := by
      rwa [List.append_assoc, List.singleton_append]
    have hmem : o ∈ done ++ [o'] := List.mem_append_left _ ho
    by_cases hne : o' = o
    · subst hne
      rw [r.entry_eq] at hd
      cases hd
      rw [List.filter_cons_of_neg (by simp), execute_cons r.entry_eq r.opcode_ne_ret]
      obtain ⟨x, hx, hcompute⟩ := henv.computed o' ho r.entry r.old r.entry_eq r.result_eq
      rw [hcompute]
      show _ = s.execute rest (bindResult r.entry env (some x))
      rw [bindResult, r.result_eq]
      refine ih hflow' hmem (henv.of_compute howned hdone r.entry_eq hfits r.opcode_ne_ret
        r.result_eq hcompute) fun u hu => ?_
      rw [← hagree u hu, Env.get_set]
      split
      · next heq => rw [← heq, hx]
      · rfl
    · have hd' := r.ops_of_ne hne hd
      have hread := r.get_rename henv hagree hd hfits
      rw [List.filter_cons_of_pos (by simpa using hne)]
      by_cases hret : d.opcode = .ret
      · rw [execute_ret hd hret, execute_ret hd' hret]
        exact mapM_get_rename d.operands hread
      · rw [execute_cons hd hret, execute_cons hd' hret]
        have hrename : compute o' (d.rename r.old r.new) env' = compute o' d env :=
          (compute_rename o' hread).symm
        rw [hrename]
        rcases henv.step howned hdone hd hfits hret with
          ⟨v, x, hv, hcompute, hsettled⟩ | ⟨hzero, -⟩
        · rw [hcompute]
          show r.result.execute _ (bindResult (d.rename r.old r.new) env' (some x)) =
            s.execute rest (bindResult d env (some x))
          have hv' : (d.rename r.old r.new).result? = some v := hv
          have hresult : s.result? o' = some v := (result?_eq hd).trans hv
          rw [bindResult, bindResult, hv, hv']
          refine ih hflow' hmem hsettled (r.agree_set hagree ?_ ?_ x)
          · obtain ⟨ty, -, hvalue⟩ := howned.result_origin o' v hresult
            exact decide_eq_true (Array.getElem?_eq_some_iff.1 hvalue).1
          · rintro rfl
            exact hne (howned.result_inj hresult r.result?_old)
        · rw [hzero]
          rfl

/-! ## Whole programs -/

theorem execute_eq (hsound : ∀ x y w, t.evaluate x y w = op.eval x y w) {env : Env}
    (henv : s.Settled p [] env) :
    r.result.execute r.listing env = s.execute (r.before ++ o :: r.after) env := by
  have howned := r.site.consistent.owned
  have hflow := r.site.valid.flow
  have hentry : ∀ o' ∈ r.before, ∃ d, s.ops[o'.index]? = some d ∧ d.opcode ≠ .ret :=
    fun o' => r.site.exists_ne_ret
  rw [listing, execute_append r.exists_ne_ret_front, advance_append,
    advance_congr (fun o' => r.ops_before), execute_append hentry, bind_assoc]
  cases hadvance : s.advance r.before env with
  | error stop => rfl
  | ok env₁ =>
    have hsettled : s.Settled p r.before env₁ := by
      have hfront : s.Flow p [] ([] ++ r.before) := (flow_append.1 hflow).1
      exact henv.advance howned hfront (fun o' => r.site.opcode_ne_ret) hadvance
    obtain ⟨x, env₂, hcompute, hfresh, hnew, hkeep⟩ := r.advance_fresh hsound hsettled
    show (r.result.advance r.fresh env₁ >>= r.result.execute _) = s.execute (o :: r.after) env₁
    rw [hfresh, execute_cons r.entry_eq r.opcode_ne_ret, hcompute]
    show r.result.execute _ env₂ = s.execute r.after (bindResult r.entry env₁ (some x))
    rw [bindResult, r.result_eq]
    obtain ⟨hbefore, ⟨d, hd, hfits⟩, -⟩ := flow_append.1 hflow
    rw [r.entry_eq] at hd
    cases hd
    have hsettled' := hsettled.of_compute howned hbefore r.entry_eq hfits r.opcode_ne_ret
      r.result_eq hcompute
    refine r.execute_back (by rwa [List.append_assoc, List.singleton_append])
      (by simp) hsettled' fun v hv => ?_
    have hlt := of_decide_eq_true hv
    rw [ValueId.rename, Env.get_set]
    split
    · next heq => rw [if_pos heq.symm, hnew]
    · next hne => rw [if_neg (Ne.symm hne), hkeep _ hlt]

/-- **The program gives the same outputs, or the same error**, for all arguments. -/
theorem run_eq (hsound : ∀ x y w, t.evaluate x y w = op.eval x y w) (args : List Scalar) :
    r.result.run p args = s.run p args := by
  have hbind : r.result.bindArguments ((p.inputs s).zip args) 0 Table.empty =
      s.bindArguments ((p.inputs s).zip args) 0 Table.empty := by
    refine bindArguments_congr (fun v hv => r.valueTy_eq ?_) 0 _
    obtain ⟨pair, hpair, rfl⟩ := List.mem_map.1 hv
    have hinput : s.Defines p [] pair.1 := .inl (List.of_mem_zip hpair).1
    exact hinput.isAllocated r.site.consistent.owned
  rw [run, run, r.inputs_eq, hbind, r.valid.listed, r.site.valid.listed]
  split
  · rfl
  · next hlength =>
    cases henv : s.bindArguments ((p.inputs s).zip args) 0 Table.empty with
    | error stop => rfl
    | ok env =>
      exact r.execute_eq hsound (settled_bindArguments (Decidable.not_not.1 hlength) henv)

end Replacement

end Store

/-! ## Rounds -/

/-- A catalog whose templates compute their operators on all words of all widths. -/
def Catalog.Sound (c : Catalog) : Prop :=
  ∀ op, op.isSupported = true → ∀ t ∈ c.templates op, ∀ x y w, t.evaluate x y w = op.eval x y w

theorem Catalog.sound_standard : Catalog.standard.Sound :=
  fun _ _ _ ht => evaluate_standardTemplates ht

theorem Store.Rewrites.run_eq {c : Catalog} (hsound : c.Sound) {p : Program} {s s' : Store}
    (h : Rewrites c p s s') (args : List Scalar) : s'.run p args = s.run p args := by
  induction h with
  | refl s => rfl
  | step ht r _ ih => rw [ih, r.run_eq (hsound _ r.supported _ ht)]

namespace Bench

open Store

/-- What a round leaves to its caller: its configuration and its random source. -/
structure RoundInput where
  {γ : Type}
  [random : RandomSource γ]
  config : MutationConfig
  source : γ

instance (round : RoundInput) : RandomSource round.γ := round.random

/-- Rounds of mutation, one after another. What a round has done before it stops at an error stays,
and the next one goes on from there. -/
def mutateRounds (c : Catalog) (p : Program) : List RoundInput → Store → Except Fault Store
  | [], s => .ok s
  | round :: rest, s =>
    match mutateProgram c round.config p ⟨s, round.source⟩ with
    | .done _ b | .failed _ b => mutateRounds c p rest b.store
    | .fault f => .error f

/-- **Rounds of mutation are replacements.** -/
theorem rewrites_mutateRounds {c : Catalog} {p : Program} (rounds : List RoundInput) {s : Store}
    (hs : s.Mutable p) : ∃ s', mutateRounds c p rounds s = .ok s' ∧ Rewrites c p s s' := by
  induction rounds generalizing s with
  | nil => exact ⟨s, rfl, .refl s⟩
  | cons round rest ih =>
    obtain ⟨outcome, hend, houtcome⟩ :=
      mutateProgram_outcome (b := ⟨s, round.source⟩) c round.config.maxPicks hs
    have hconfig : mutateProgram c round.config p ⟨s, round.source⟩ = outcome :=
      houtcome round.config.validate
    rw [mutateRounds, hconfig]
    cases hend with
    | idle _ => exact ih hs
    | mutated _ rewrites | stopped _ _ rewrites =>
      obtain ⟨s', hdone, hrest⟩ := ih (rewrites.mutable hs)
      exact ⟨s', hdone, rewrites.trans hrest⟩

/-- **A program computes what it did before any number of rounds** with a sound catalog: no round
faults, and the outputs, or the error, are the same for all arguments. -/
theorem run_mutateRounds {c : Catalog} (hsound : c.Sound) {s : Store} (hreach : s.Reachable)
    (ha : s.OperandsAllocated) {p : Program} (hv : s.validate p = .ok [])
    (rounds : List RoundInput) :
    ∃ s', mutateRounds c p rounds s = .ok s' ∧ ∀ args, s'.run p args = s.run p args := by
  obtain ⟨s', hdone, hrewrites⟩ :=
    rewrites_mutateRounds rounds (.of_validate hreach.consistent ha hv)
  exact ⟨s', hdone, hrewrites.run_eq hsound⟩

theorem run_mutateRounds_sum :
    let p : Program := ⟨"sum", ⟨0⟩⟩
    let rounds : List RoundInput := [⟨{}, ChaCha.ofSeed 1⟩, ⟨{ maxPicks := 3 }, Script.ofWords [5]⟩]
    ∃ s', mutateRounds Catalog.standard p rounds sumStore = .ok s' ∧
      s'.run p [.int .w32 5, .int .w32 7] = .ok [.int .w32 12] := by
  intro p rounds
  obtain ⟨s', hdone, hrun⟩ := run_mutateRounds (p := p) Catalog.sound_standard reachable_sumStore
    (by decide) (by decide +kernel) rounds
  exact ⟨s', hdone, (hrun _).trans rfl⟩

end Bench

end Mba
