import Mathlib.Data.List.Forall2
import Mathlib.Data.List.Nodup
import Mathlib.Logic.Function.Basic
import Mba.Proofs.Mutation.Round

/-!
# Operations replaced by runs of operations

Replacements follow one another in one store. Each of them moves the operations of the program to
other places, and renames what they read. What comes of all of them is a single substitution, which
is told here by the store before the first one: each replaced operation has a run of new operations
in its place, and what read its result reads the result of the last operation of the run. All other
operations are as they were.

Results:
* `Replacement.splice_eq`: the program after one replacement more, as a list.
* `Redirected.step`: what is read after one replacement more.
* `Substituted.replace`: a substitution followed by a replacement is a substitution.
* `Substituted.eligibility_eq`: operations that were not replaced are as eligible as they were.
-/

namespace Mba.Store

/-! ## Substitutions -/

/-- The list in which the operations `picks` have runs in their places. -/
def splice (picks : List OpId) (run : OpId → List OpId) (ops : List OpId) : List OpId :=
  ops.flatMap fun o => if o ∈ picks then run o else [o]

/-- What is read in the place of a value of the store `s` when the operations `picks` have been
replaced by runs: the result of the last operation of the run for the result of a replaced one, and
any other value itself. -/
inductive Redirected (s : Store) (picks : List OpId) (run : OpId → List OpId) (s' : Store) :
    ValueId → ValueId → Prop
  | kept {v : ValueId} (h : ∀ o ∈ picks, s.result? o ≠ some v) : Redirected s picks run s' v v
  | result {o last : OpId} {v v' : ValueId} (ho : o ∈ picks) (hv : s.result? o = some v)
      (hlast : (run o).getLast? = some last) (hv' : s'.result? last = some v') :
      Redirected s picks run s' v v'

/-- The operation is the same but for what it reads. -/
structure SameButReads (reads : ValueId → ValueId → Prop) (d d' : Operation) : Prop where
  opcode : d'.opcode = d.opcode
  resultTy? : d'.resultTy? = d.resultTy?
  result? : d'.result? = d.result?
  parent? : d'.parent? = d.parent?
  operands : List.Forall₂ reads d.operands d'.operands

/-- In a program that had the operations `ops`, those of `picks` have been replaced by runs of new
operations. -/
structure Substituted (s : Store) (p : Program) (ops picks : List OpId) (run : OpId → List OpId)
    (s' : Store) : Prop where
  listed : p.ops s' = .ok (splice picks run ops)
  nodup : (splice picks run ops).Nodup
  size_ops : s.ops.size ≤ s'.ops.size
  fresh : ∀ o ∈ picks, ∀ o' ∈ run o, s.ops.size ≤ o'.index
  /-- All operations of the store that were not replaced, also those of other programs. -/
  others : ∀ o, o ∉ picks → ∀ d, s.ops[o.index]? = some d →
    ∃ d', s'.ops[o.index]? = some d' ∧ SameButReads (Redirected s picks run s') d d'

variable {s s₁ : Store} {p : Program} {ops picks : List OpId} {run : OpId → List OpId} {o : OpId}
  {op : BinaryOp} {t : Template}

theorem mem_splice_of_notMem (ho : o ∈ ops) (hnew : o ∉ picks) : o ∈ splice picks run ops :=
  List.mem_flatMap.2 ⟨o, ho, by rw [if_neg hnew]; exact List.mem_singleton_self o⟩

/-- Nothing is replaced at the start. -/
theorem substituted_start (hops : p.ops s = .ok ops) (hnodup : ops.Nodup) (run : OpId → List OpId) :
    Substituted s p ops [] run s := by
  have hsplice : splice [] run ops = ops := by simp [splice]
  constructor
  case listed => rwa [hsplice]
  case nodup => rwa [hsplice]
  case size_ops => exact Nat.le_refl _
  case fresh => exact nofun
  case others =>
    intro o _ d hd
    exact ⟨d, hd, rfl, rfl, rfl, rfl, List.forall₂_same.2 fun v _ => .kept nofun⟩

/-! ## One replacement more -/

/-- A run in the place of one operation more. -/
theorem splice_insert {before after fresh : List OpId} (hnodup : (splice picks run ops).Nodup)
    (hsplit : before ++ o :: after = splice picks run ops) (ho : o ∈ ops) (hnew : o ∉ picks) :
    splice (picks ++ [o]) (Function.update run o fresh) ops = before ++ fresh ++ after := by
  obtain ⟨front, back, rfl⟩ := List.append_of_mem ho
  have hmiddle : splice picks run (front ++ o :: back) =
      splice picks run front ++ o :: splice picks run back := by
    simp [splice, hnew]
  rw [hmiddle] at hnodup hsplit
  obtain ⟨hfront, hback⟩ : o ∉ splice picks run front ∧ o ∉ splice picks run back := by
    simpa using (List.nodup_cons.1 (List.nodup_middle.1 hnodup)).1
  obtain ⟨rfl, -, rfl⟩ := (List.append_cons_inj_of_notMem hfront hback).1 hsplit.symm
  -- the other operations are passed by
  have hother : ∀ others : List OpId, o ∉ splice picks run others →
      splice (picks ++ [o]) (Function.update run o fresh) others = splice picks run others := by
    intro others hnot
    refine List.flatMap_congr fun o' ho' => ?_
    have hne : o' ≠ o := by
      rintro rfl
      exact hnot (mem_splice_of_notMem ho' hnew)
    simp only [List.mem_append, List.mem_singleton, hne, or_false, Function.update_of_ne hne]
  have hself : splice (picks ++ [o]) (Function.update run o fresh) [o] = fresh := by
    simp [splice]
  rw [← hother front hfront, ← hother back hback, ← hself]
  simp [splice]

namespace Replacement

variable (r : Replacement s p o op t)

/-- The results of other operations stay. -/
theorem result?_of_ne {o' : OpId} (hne : o' ≠ o) {d : Operation} (hd : s.ops[o'.index]? = some d) :
    r.result.result? o' = d.result? :=
  (result?_eq (r.ops_of_ne hne hd)).trans rfl

/-- **The last new operation defines what takes the place of the result.** -/
theorem exists_last : ∃ last, r.fresh.getLast? = some last ∧ r.result.result? last = some r.new := by
  obtain ⟨-, hpos, hnew⟩ := r.coded
  have hlength := r.length_fresh
  have hlt : (t.code r.width).length - 1 < (t.code r.width).length := by omega
  refine ⟨⟨s.ops.size + ((t.code r.width).length - 1)⟩, ?_, ?_⟩
  · rw [List.getLast?_eq_getElem?, hlength, r.getElem?_fresh (by omega)]
  · rw [result?_eq (r.ops_fresh (List.getElem?_eq_getElem hlt)), hnew]
    rfl

/-- **The program after one replacement more**, as a list without repetitions. -/
theorem splice_eq {s₁ : Store} (r : Replacement s₁ p o op t)
    (hlisted : p.ops s₁ = .ok (splice picks run ops)) (hnodup : (splice picks run ops).Nodup)
    (ho : o ∈ ops) (hnew : o ∉ picks) :
    splice (picks ++ [o]) (Function.update run o r.fresh) ops = r.listing ∧ r.listing.Nodup := by
  have hsplit : r.before ++ o :: r.after = splice picks run ops :=
    Except.ok.inj (r.site.valid.listed.symm.trans hlisted)
  have hmiddle := List.nodup_middle.1 (hsplit ▸ hnodup)
  obtain ⟨hnot, hrest⟩ := List.nodup_cons.1 hmiddle
  have hafter : r.after.filter (· != o) = r.after := by
    refine List.filter_eq_self.2 fun o' ho' => bne_iff_ne.2 ?_
    rintro rfl
    exact hnot (List.mem_append_right _ ho')
  have hold : ∀ o' ∈ r.before ++ r.after, o' ∉ r.fresh := by
    intro o' ho' hfresh
    have hmem : o' ∈ r.before ++ o :: r.after := by
      rw [List.mem_append] at ho'
      grind
    obtain ⟨d, hd, -⟩ := r.site.valid.entry hmem
    have := r.emission.grown.le_of_mem_fresh hfresh
    have := (Array.getElem?_eq_some_iff.1 hd).1
    omega
  rw [splice_insert hnodup hsplit ho hnew, listing, hafter]
  refine ⟨rfl, ?_⟩
  rw [(List.perm_append_comm.append_right r.after).nodup_iff, List.append_assoc]
  exact List.nodup_append.2 ⟨r.emission.grown.nodup_fresh, hrest, fun a ha b hb heq => hold b hb (heq ▸ ha)⟩

end Replacement

/-- **What is read after one replacement more.** -/
theorem Redirected.step (r : Replacement s₁ p o op t) (hs : s₁.Owned) {v u : ValueId}
    (hresult : s.result? o = some r.old) (hlt : o.index < s.ops.size) (hnew : o ∉ picks)
    (hfresh : ∀ o ∈ picks, ∀ o' ∈ run o, s.ops.size ≤ o'.index)
    (h : Redirected s picks run s₁ v u) :
    Redirected s (picks ++ [o]) (Function.update run o r.fresh) r.result v
      (ValueId.rename r.old r.new u) := by
  cases h with
  | kept hkept =>
    unfold ValueId.rename
    split
    · next heq =>
      obtain ⟨last, hlast, hlastResult⟩ := r.exists_last
      refine .result (List.mem_append_right _ List.mem_cons_self) (heq ▸ hresult) ?_ hlastResult
      rwa [Function.update_self]
    · next hne =>
      refine .kept fun o' ho' hv => ?_
      rcases List.mem_append.1 ho' with hold | hself
      · exact hkept o' hold hv
      · obtain rfl := List.mem_singleton.1 hself
        exact hne (Option.some.inj (hv.symm.trans hresult))
  | @result o' last _ _ ho' hv hlast hu =>
    have hlastNew := hfresh o' ho' last (List.mem_of_getLast? hlast)
    have hne : last ≠ o := by
      rintro rfl
      omega
    have hkept : u ≠ r.old := by
      rintro rfl
      exact hne (hs.result_inj hu r.result?_old)
    obtain ⟨d, hd, hdu⟩ := Option.bind_eq_some_iff.1 hu
    rw [ValueId.rename, if_neg hkept]
    refine .result (List.mem_append_left _ ho') hv ?_ ((r.result?_of_ne hne hd).trans hdu)
    have hother : o' ≠ o := by
      rintro rfl
      exact hnew ho'
    rwa [Function.update_of_ne hother]

namespace Substituted

variable (h : Substituted s p ops picks run s₁)
include h

/-- The result of an operation that was not replaced. -/
theorem result?_eq (hnew : o ∉ picks) {d : Operation} (hd : s.ops[o.index]? = some d) :
    s₁.result? o = s.result? o := by
  obtain ⟨d', hd', hsame⟩ := h.others o hnew d hd
  rw [Store.result?_eq hd', Store.result?_eq hd, hsame.result?]

/-- **A substitution followed by a replacement is a substitution.** -/
theorem replace (r : Replacement s₁ p o op t) (ho : o ∈ ops) (hnew : o ∉ picks)
    {d : Operation} (hd : s.ops[o.index]? = some d) :
    Substituted s p ops (picks ++ [o]) (Function.update run o r.fresh) r.result := by
  have hresult : s.result? o = some r.old := (h.result?_eq hnew hd).symm.trans r.result?_old
  have hlt := (Array.getElem?_eq_some_iff.1 hd).1
  obtain ⟨hsplice, hnodup⟩ := r.splice_eq h.listed h.nodup ho hnew
  constructor
  case listed => rw [hsplice, r.valid.listed]
  case nodup => rwa [hsplice]
  case size_ops => exact Nat.le_trans h.size_ops r.size_ops_le
  case fresh =>
    intro o' ho' o₁ ho₁
    by_cases heq : o' = o
    · subst heq
      rw [Function.update_self] at ho₁
      exact Nat.le_trans h.size_ops (r.emission.grown.le_of_mem_fresh ho₁)
    · rw [Function.update_of_ne heq] at ho₁
      exact h.fresh o' (by simpa [heq] using ho') o₁ ho₁
  case others =>
    intro o' ho' d' hd'
    obtain ⟨hold, hne⟩ : o' ∉ picks ∧ o' ≠ o := by simpa using ho'
    obtain ⟨d₁, hd₁, hsame⟩ := h.others o' hold d' hd'
    refine ⟨_, r.ops_of_ne hne hd₁, hsame.opcode, hsame.resultTy?, hsame.result?, hsame.parent?, ?_⟩
    refine List.forall₂_map_right_iff.2 (hsame.operands.imp fun v u hread => ?_)
    exact hread.step r r.site.consistent.owned hresult hlt hnew h.fresh

end Substituted

/-! ## Eligible operations -/

/-- **Operations that were not replaced are as eligible as they were.** -/
theorem Substituted.eligibility_eq (h : Substituted s p ops picks run s₁) {listed : List OpId}
    (hv : s₁.Valid p listed) (ho : o ∈ ops) (hnew : o ∉ picks) (he : s.eligibility o = .ok op) :
    o ∈ listed ∧ s₁.eligibility o = .ok op := by
  obtain ⟨d, x, y, w, hd, hop, hsupported, -, -, -, hty⟩ := eligibility_ok he
  obtain ⟨d', hd', hsame⟩ := h.others o hnew d hd
  have hmem : o ∈ listed := by
    obtain rfl := Except.ok.inj (hv.listed.symm.trans h.listed)
    exact mem_splice_of_notMem ho hnew
  exact ⟨hmem, hv.eligibility_eq_ok hmem hd' (hsame.opcode.trans hop) hsupported
    (hsame.resultTy?.trans hty)⟩

end Mba.Store
