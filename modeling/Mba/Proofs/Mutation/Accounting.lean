import Mba.Proofs.Mutation.Substitution

/-!
# What a report tells

The report of a round has one record for each operation that was picked, in program order. It tells
the whole of what was done: the picked operations have runs of new operations in their places, as
long as the records say, and nothing else has changed but what was read from the operations
replaced.

Results:
* `mutateAll_account`: eligible operations that are replaced in order give a substitution, of which
  the records tell.
* `mutateProgram_account`: so does a round, for some of the eligible operations.
-/

namespace Mba.Bench

open Store

variable {γ : Type} [RandomSource γ] {c : Catalog} {p : Program} {s : Store} {b b' : Bench γ}
  {ops : List OpId}

/-- Operations are mutated one after another, and each record tells of one of them in the store that
the mutation before has left. -/
inductive Mutations (c : Catalog) : Bench γ → List OpId → List MutationRecord → Bench γ → Prop
  | nil (b : Bench γ) : Mutations c b [] [] b
  | cons {b b₁ b' : Bench γ} {o : OpId} {rest : List OpId} {record : MutationRecord}
      {records : List MutationRecord} (mutated : mutate c o b = .done record b₁)
      (account : record.AccountsFor c b.store o) (more : Mutations c b₁ rest records b') :
      Mutations c b (o :: rest) (record :: records) b'

/-- The record names the operator that the operation has in the store `s`, and the length of its
run. -/
def TellsRun (s : Store) (run : OpId → List OpId) (o : OpId) (record : MutationRecord) : Prop :=
  s.eligibility o = .ok record.operator ∧ (run o).length = record.emitted

/-- **Eligible operations that are replaced in order** have runs in their places, of which the
records tell. Those of `done` were replaced before. -/
theorem mutateAll_account {picks : List OpId} : ∀ {done : List OpId} {run : OpId → List OpId}
    {b : Bench γ} {records : List MutationRecord}, b.store.Mutable p →
    s.Substituted p ops done run b.store → (∀ o ∈ picks, o ∈ s.eligibleOps ops) →
    (done ++ picks).Nodup → mutateAll c picks b = .done records b' →
    ∃ run', (∀ o ∈ done, run' o = run o) ∧ s.Substituted p ops (done ++ picks) run' b'.store ∧
      Mutations c b picks records b' ∧ List.Forall₂ (TellsRun s run') picks records := by
  induction picks with
  | nil =>
    intro done run b records _ hdone _ _ h
    cases h
    refine ⟨run, fun _ _ => rfl, ?_, .nil _, .nil⟩
    rwa [List.append_nil]
  | cons o rest ih =>
    intro done run b records hb hdone hpicks hnodup h
    obtain ⟨ho, op, he⟩ := mem_eligibleOps.1 (hpicks o List.mem_cons_self)
    obtain ⟨d, -, -, -, hd, -⟩ := eligibility_ok he
    have hnew : o ∉ done := (List.nodup_cons.1 (List.nodup_middle.1 hnodup)).1 ∘ List.mem_append_left _
    -- the operation is still there, and is still eligible
    obtain ⟨listed, hv⟩ := hb.valid
    obtain ⟨hlisted, he'⟩ := hdone.eligibility_eq hv ho hnew he
    rw [mutateAll_cons (isEligible_eq_true_iff.2 ⟨op, he'⟩)] at h
    rcases mutate_outcome (c := c) hb.consistent hb.allocated hv hlisted he' with
      ⟨-, hfailed⟩ | ⟨t, -, r, record, source, -, hmutated, haccount, hlength⟩
    · rw [if_pos rfl, Edit.bind_failed hfailed] at h
      cases h
    rw [if_pos rfl, Edit.bind_done hmutated] at h
    obtain ⟨records', b₁, hrest, hend⟩ := Edit.bind_eq_done.1 h
    cases hend
    have hassoc : done ++ [o] ++ rest = done ++ o :: rest := by simp
    obtain ⟨run', hkept, hsubstituted, hmore, htold⟩ := ih r.mutable (hdone.replace r ho hnew hd)
      (fun o' ho' => hpicks o' (List.mem_cons_of_mem _ ho')) (by rwa [hassoc]) hrest
    have hrun : run' o = r.fresh := by
      rw [hkept o (List.mem_append_right _ List.mem_cons_self), Function.update_self]
    refine ⟨run', fun o' ho' => ?_, by rwa [hassoc] at hsubstituted, .cons hmutated haccount hmore,
      .cons ⟨?_, by rw [hrun, hlength]⟩ htold⟩
    · have hne : o' ≠ o := by
        rintro rfl
        exact hnew ho'
      rw [hkept o' (List.mem_append_left _ ho'), Function.update_of_ne hne]
    · rw [he, ← he', haccount.operator]

/-- **The account of a round** that has brought the bench `b` to `b'`, for a program with the
operations `ops` before: the operations `picks` were replaced, each by its run. -/
structure RoundAccount (c : Catalog) (config : MutationConfig) (p : Program)
    (report : MutationReport) (b b' : Bench γ) (ops picks : List OpId) (run : OpId → List OpId) :
    Prop where
  listed : p.ops b.store = .ok ops
  candidates : report.candidates = (b.store.eligibleOps ops).length
  /-- The picks are eligible operations, in program order. -/
  sublist : picks.Sublist (b.store.eligibleOps ops)
  distinct : picks.Nodup
  nonempty : picks ≠ []
  length : picks.length = report.records.length
  bounded : report.records.length ≤ min (max 1 config.maxPicks) report.candidates
  /-- The picks were mutated in this order, from the store before the round on. -/
  mutations : ∃ source, Mutations c ⟨b.store, source⟩ picks report.records b'
  runs : List.Forall₂ (TellsRun b.store run) picks report.records
  substituted : b.store.Substituted p ops picks run b'.store

/-- **A round accounts for what it has done.** -/
theorem mutateProgram_account {config : MutationConfig} {report : MutationReport}
    (hb : b.store.Mutable p) (hops : p.ops b.store = .ok ops) (hnodup : ops.Nodup)
    (h : mutateProgram c config p b = .done (some report) b') :
    ∃ picks run, RoundAccount c config p report b b' ops picks run := by
  obtain ⟨s, source⟩ := b
  -- it does not matter whether the round validates
  obtain ⟨outcome, -, houtcome⟩ := mutateProgram_outcome c config.maxPicks hb
  rw [show mutateProgram c config p ⟨s, source⟩ = outcome from houtcome config.validate,
    ← houtcome false] at h
  obtain ⟨found, b₁, hread, h⟩ := Edit.bind_eq_done.1 h
  obtain ⟨hfound, rfl⟩ := Edit.read_eq_done.1 hread
  obtain ⟨listed, hv⟩ := hb.valid
  obtain rfl : ops = listed := Except.ok.inj (hops.symm.trans hv.listed)
  obtain rfl : s.eligibleOps ops = found :=
    Except.ok.inj ((candidates_eq hb.allocated hv).symm.trans (lift_eq_ok.1 hfound))
  split at h
  next => cases h
  next hne =>
  rw [List.isEmpty_iff] at hne
  obtain ⟨picks, b₂, hdraw, h⟩ := Edit.bind_eq_done.1 h
  obtain ⟨records, b₃, hall, hend⟩ := Edit.bind_eq_done.1 h
  cases hend
  obtain ⟨source', hpicks, rfl⟩ : ∃ source',
      picks = (drawPicks config.maxPicks (s.eligibleOps ops) source).1 ∧ b₂ = ⟨s, source'⟩ := by
    have hdrawn : Outcome.done _ (⟨s, _⟩ : Bench γ) = (.done picks b₂ : Outcome _ MutationError _) :=
      hdraw
    cases hdrawn
    exact ⟨_, rfl, rfl⟩
  have hsublist := hpicks ▸ drawPicks_sublist config.maxPicks (s.eligibleOps ops) source
  obtain ⟨hnonempty, hbound⟩ := hpicks ▸ drawPicks_length config.maxPicks hne source
  have hdistinct := (hsublist.trans List.filter_sublist).nodup hnodup
  have hmutable : (Bench.mk s source').store.Mutable p := hb
  obtain ⟨run, -, hsubstituted, hmutations, hruns⟩ := mutateAll_account hmutable
    (substituted_start hops hnodup fun _ => []) hsublist.subset hdistinct hall
  have hlength := hruns.length_eq
  refine ⟨_, run, hops, rfl, hsublist, hdistinct, hnonempty, hlength, ?_, ⟨_, hmutations⟩, hruns,
    hsubstituted⟩
  rw [← hlength]
  exact Nat.le_min.2 ⟨hbound, hsublist.length_le⟩

end Mba.Bench
