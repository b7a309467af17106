import Mba.Store.Change

/-!
# Use chains and operand slots

A slot is read off the operands of its operation (`slot?`), and the chains list the slots by what
they read. `ChainsExact` says that the two agree: the chain of a value lists every slot that reads
it, once, and nothing else.

Results:
* `uses_addUses`, `uses_dropUses`: what entering and leaving the chains does to each of them.
* `ChainsExact.redirects`: where the chains are exact, redirecting the slots of a chain succeeds,
  and is the renaming of the value in all operands.
-/

namespace Mba

namespace Store

/-! ## Stores with other chains -/

/-- The stores differ in their chains only. -/
structure SameEntries (s s' : Store) : Prop where
  ops : s'.ops = s.ops
  values : s'.values = s.values
  blocks : s'.blocks = s.blocks

theorem sameEntries_setUses (s : Store) (v : ValueId) (chain : List Use) :
    SameEntries s (s.setUses v chain) := ⟨rfl, rfl, rfl⟩

theorem sameEntries_foldl {α : Type} {f : Store → α → Store} (hf : ∀ s x, SameEntries s (f s x)) :
    ∀ (l : List α) (s : Store), SameEntries s (l.foldl f s)
  | [], _ => ⟨rfl, rfl, rfl⟩
  | x :: l, s => by
    obtain ⟨hops, hvalues, hblocks⟩ := sameEntries_foldl hf l (f s x)
    obtain ⟨hops', hvalues', hblocks'⟩ := hf s x
    exact ⟨hops.trans hops', hvalues.trans hvalues', hblocks.trans hblocks'⟩

/-! ## Slots -/

/-- What an operand slot reads. -/
def slot? (s : Store) (use : Use) : Option ValueId :=
  s.ops[use.user.index]?.bind (·.operands[use.slot]?)

/-- The slots of an operation with the given operands that read a value. -/
def slotsReading (o : OpId) (operands : List ValueId) (v : ValueId) : List Use :=
  (operands.zipIdx.filter (·.1 = v)).map fun x => ⟨o, x.2⟩

theorem mem_slotsReading {o : OpId} {operands : List ValueId} {v : ValueId} {use : Use} :
    use ∈ slotsReading o operands v ↔ use.user = o ∧ operands[use.slot]? = some v := by
  obtain ⟨user, slot⟩ := use
  simp only [slotsReading, List.mem_map, List.mem_filter, decide_eq_true_eq, Prod.exists,
    List.mem_zipIdx_iff_getElem?, Use.mk.injEq]
  constructor
  · rintro ⟨x, i, ⟨hx, rfl⟩, rfl, rfl⟩
    exact ⟨rfl, hx⟩
  · rintro ⟨rfl, hx⟩
    exact ⟨v, slot, ⟨hx, rfl⟩, rfl, rfl⟩

theorem slotsReading_eq_nil {o : OpId} {operands : List ValueId} {v : ValueId}
    (h : v ∉ operands) : slotsReading o operands v = [] := by
  rw [List.eq_nil_iff_forall_not_mem]
  intro use huse
  exact h (List.mem_of_getElem? (mem_slotsReading.1 huse).2)

theorem nodup_slotsReading (o : OpId) (operands : List ValueId) (v : ValueId) :
    (slotsReading o operands v).Nodup := by
  have hslots : ((operands.zipIdx.filter (·.1 = v)).map (·.2)).Nodup := by
    refine List.Nodup.sublist ((List.filter_sublist).map _) ?_
    rw [List.zipIdx_map_snd]
    exact List.nodup_range'
  rw [slotsReading, List.Nodup, List.pairwise_map]
  refine (List.pairwise_map.1 hslots).imp ?_
  intro x y hne heq
  exact hne (Use.mk.inj heq).2

theorem uses_addUse (s : Store) (v w : ValueId) (use : Use) :
    (s.addUse v use).uses w = if v = w then s.uses w ++ [use] else s.uses w := by
  rw [addUse, uses_setUses]
  split
  · next h => rw [h]
  · rfl

/-- **Entering operands in the chains puts each slot at the end of the chain of what it reads.** -/
theorem uses_addUses (o : OpId) (slots : List (ValueId × Nat)) (s : Store) (v : ValueId) :
    (slots.foldl (fun s (operand, i) => s.addUse operand ⟨o, i⟩) s).uses v =
      s.uses v ++ (slots.filter (·.1 = v)).map fun x => ⟨o, x.2⟩ := by
  induction slots generalizing s with
  | nil => simp
  | cons x rest ih =>
    rw [List.foldl_cons, ih, uses_addUse, List.filter_cons]
    by_cases h : x.1 = v
    · simp [h]
    · simp [h]

/-- **Taking operands out of the chains drops each slot from the chain of what it reads.** -/
theorem uses_dropUses (o : OpId) (slots : List (ValueId × Nat)) (s : Store) (v : ValueId) :
    (slots.foldl (fun s (operand, i) =>
        s.setUses operand ((s.uses operand).filter (· != ⟨o, i⟩))) s).uses v =
      (s.uses v).filter fun use => decide (use ∉ (slots.filter (·.1 = v)).map fun x => ⟨o, x.2⟩) := by
  induction slots generalizing s with
  | nil => exact (List.filter_eq_self.2 (by simp)).symm
  | cons x rest ih =>
    rw [List.foldl_cons, ih, uses_setUses]
    by_cases h : x.1 = v
    · subst h
      have hfilter : (x :: rest).filter (·.1 = x.1) = x :: rest.filter (·.1 = x.1) :=
        List.filter_cons_of_pos (by simp)
      rw [if_pos rfl, List.filter_filter, hfilter]
      refine List.filter_congr fun use _ => ?_
      rw [Bool.eq_iff_iff]
      by_cases hu : use = ⟨o, x.2⟩ <;> simp [hu]
    · have hfilter : (x :: rest).filter (·.1 = v) = rest.filter (·.1 = v) :=
        List.filter_cons_of_neg (by simpa using h)
      rw [if_neg h, hfilter]

end Store

/-! ## Renaming -/

/-- The value that stands for `v` when `new` takes the place of `old`. -/
def ValueId.rename (old new v : ValueId) : ValueId :=
  if v = old then new else v

/-- The operation with `new` read in place of `old`. -/
def Operation.rename (old new : ValueId) (d : Operation) : Operation :=
  { d with operands := d.operands.map (ValueId.rename old new) }

theorem Operation.rename_of_notMem {old : ValueId} (new : ValueId) {d : Operation}
    (h : old ∉ d.operands) : d.rename old new = d := by
  have hmap : d.operands.map (ValueId.rename old new) = d.operands := by
    refine (List.map_congr_left fun v hv => if_neg ?_).trans (List.map_id d.operands)
    rintro rfl
    exact h hv
  rw [Operation.rename, hmap]

namespace Store

/-- The operation at number `i` with its slots in the list made to read `new`. -/
def redirectIn (uses : List Use) (new : ValueId) (i : Nat) (d : Operation) : Operation :=
  { d with operands := d.operands.mapIdx fun slot v => if ⟨⟨i⟩, slot⟩ ∈ uses then new else v }

theorem getElem?_redirect {old : ValueId} (new : ValueId) {ops : Array Operation} {use : Use}
    {d : Operation} (hd : ops[use.user.index]? = some d) (hread : d.operands[use.slot]? = some old) :
    ∃ ops', redirect old new ops use = .ok ops' ∧
      ∀ i, ops'[i]? = ops[i]?.map (redirectIn [use] new i) := by
  obtain ⟨⟨user⟩, slot⟩ := use
  refine ⟨_, by simp only [redirect, hd, hread, if_true]; rfl, fun i => ?_⟩
  rw [Array.getElem?_modify]
  split
  · next h =>
    subst h
    rw [hd, Option.map_some, Option.map_some, redirectIn]
    congr 2
    refine List.ext_getElem? fun j => ?_
    rw [List.getElem?_set, List.getElem?_mapIdx]
    by_cases hj : slot = j
    · subst hj
      have hlt : slot < d.operands.length := (List.getElem?_eq_some_iff.1 hread).1
      simp [hlt]
    · have hj' : j ≠ slot := Ne.symm hj
      simp [hj, hj']
  · next h =>
    have hid : redirectIn [⟨⟨user⟩, slot⟩] new i = id := by
      funext d
      have hi : i ≠ user := Ne.symm h
      simp [redirectIn, hi, List.mapIdx_eq_zipIdx_map]
    rw [hid, Option.map_id, id]

theorem redirectIn_redirectIn (use : Use) (rest : List Use) (new : ValueId) (i : Nat)
    (d : Operation) :
    redirectIn rest new i (redirectIn [use] new i d) = redirectIn (use :: rest) new i d := by
  simp only [redirectIn, List.mapIdx_mapIdx]
  congr 2
  funext slot v
  by_cases h : (⟨⟨i⟩, slot⟩ : Use) = use <;> simp [h]

/-- Slots that all read `old` can be redirected one after another, if none is listed twice. -/
theorem foldlM_redirect {old : ValueId} (new : ValueId) : ∀ (uses : List Use) (ops : Array Operation),
    uses.Nodup →
    (∀ use ∈ uses, ∃ d, ops[use.user.index]? = some d ∧ d.operands[use.slot]? = some old) →
    ∃ ops', uses.foldlM (redirect old new) ops = .ok ops' ∧
      ∀ i, ops'[i]? = ops[i]?.map (redirectIn uses new i)
  | [], ops, _, _ => by
    refine ⟨ops, rfl, fun i => ?_⟩
    have hid : redirectIn [] new i = id := by
      funext d
      simp [redirectIn, List.mapIdx_eq_zipIdx_map]
    rw [hid, Option.map_id, id]
  | use :: rest, ops, hnodup, hread => by
    obtain ⟨d, hd, hslot⟩ := hread use List.mem_cons_self
    obtain ⟨ops₁, hok, hops₁⟩ := getElem?_redirect new hd hslot
    obtain ⟨hnot, hrest⟩ := List.nodup_cons.1 hnodup
    have hread₁ : ∀ use' ∈ rest, ∃ d', ops₁[use'.user.index]? = some d' ∧
        d'.operands[use'.slot]? = some old := by
      intro use' hmem
      obtain ⟨d', hd', hslot'⟩ := hread use' (List.mem_cons_of_mem _ hmem)
      refine ⟨_, by rw [hops₁, hd', Option.map_some], ?_⟩
      have hne : use' ≠ use := fun h => hnot (h ▸ hmem)
      simp [redirectIn, hslot', hne]
    obtain ⟨ops₂, hok₂, hops₂⟩ := foldlM_redirect new rest ops₁ hrest hread₁
    refine ⟨ops₂, ?_, fun i => ?_⟩
    · rw [List.foldlM_cons, hok]
      exact hok₂
    · rw [hops₂, hops₁, Option.map_map]
      congr 1
      funext d
      exact redirectIn_redirectIn use rest new i d

/-! ## Exact chains -/

/-- Every chain lists the slots that read its value, each once, and nothing else. -/
structure ChainsExact (s : Store) : Prop where
  nodup : ∀ v, (s.uses v).Nodup
  mem_uses : ∀ v use, use ∈ s.uses v ↔ s.slot? use = some v

/-- **Redirecting a chain that is exact succeeds** and renames its value in all operands. -/
theorem ChainsExact.redirects {s : Store} (hs : s.ChainsExact) (old new : ValueId) :
    (s.uses old).foldlM (redirect old new) s.ops = .ok (s.ops.map (Operation.rename old new)) := by
  have hread : ∀ use ∈ s.uses old, ∃ d, s.ops[use.user.index]? = some d ∧
      d.operands[use.slot]? = some old := by
    intro use hmem
    exact Option.bind_eq_some_iff.1 ((hs.mem_uses old use).1 hmem)
  obtain ⟨ops', hok, hops'⟩ := foldlM_redirect new _ _ (hs.nodup old) hread
  rw [hok]
  congr 1
  refine Array.ext_getElem? fun i => ?_
  rw [hops', Array.getElem?_map]
  cases hd : s.ops[i]? with
  | none => rfl
  | some d =>
    rw [Option.map_some, Option.map_some, redirectIn, Operation.rename]
    congr 2
    refine List.ext_getElem? fun slot => ?_
    rw [List.getElem?_mapIdx, List.getElem?_map]
    cases hv : d.operands[slot]? with
    | none => rfl
    | some v =>
      have hmem : (⟨⟨i⟩, slot⟩ : Use) ∈ s.uses old ↔ v = old := by
        rw [hs.mem_uses]
        simp [slot?, hd, hv]
      simp only [Option.map_some, hmem, ValueId.rename]

end Store

end Mba
