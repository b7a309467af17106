import Mba.Proofs.Listing.Insulation

/-!
# Annotated types

A line may say the type of its result. An integer constant takes its type from there, and every
other operation with a result must have the type that the line says. A return has no result, and
what its line says about a type is only looked up: `return %a : f64` is read as `return %a`.

Results:
* `Assembled.annotated`: the results of lines that are built have the annotated types.
* `Program.read_annotated`: so have those of a text that is read.
-/

namespace Mba

open Listing Store

namespace Listing

variable {s s' : Store} {p : Program} {names names' : Names} {line : Line}

/-! ## Lines -/

/-- The operation of a line has a result of the type that the line is annotated with, if it is,
unless the line is a return. -/
def Line.Annotates (line : Line) (s : Store) (o : OpId) : Prop :=
  ∀ name ∈ line.ty?, ∃ ty, Ty.ofName? name = some ty ∧
    (line.mnemonic ≠ "return" → s.resultTy? o = some ty)

theorem Line.Annotates.extends {o : OpId} (h : line.Annotates s o) (hs : Extends s s') :
    line.Annotates s' o := by
  intro name hname
  obtain ⟨ty, hty, hresult⟩ := h name hname
  refine ⟨ty, hty, fun hreturn => ?_⟩
  obtain ⟨d, hd, hresultTy⟩ := Option.bind_eq_some_iff.1 (hresult hreturn)
  rw [resultTy?_eq (hs.ops _ _ hd), hresultTy]

variable {start : Nat} {done : List OpId}

/-- **The result of a line that is built has the annotated type.** -/
theorem Assembled.annotated_line (hs : Assembled s p start done names)
    (h : line.assemble p names s = .done names' s') :
    Assembled s' p start (done ++ [⟨s.ops.size⟩]) names' ∧ Extends s s' ∧
      line.Annotates s' ⟨s.ops.size⟩ := by
  obtain ⟨_, _, _, hemitted, -, hassembled⟩ := hs.emits h
  refine ⟨hassembled, hemitted.emitted.extends, fun name hname => ?_⟩
  obtain ⟨operands, annotated?, order, v?, hresolve, hannotated, hasks, hcall, hbinds⟩ :=
    Line.assemble_eq_done.1 h
  obtain ⟨draft, hemits⟩ := hasks.emits hs.built (fun v hv =>
    (hs.defines_of_resolve hresolve v hv).isAllocated hs.built.consistent.owned) hcall
  -- the annotated type is known, and is that of the value if there is one
  obtain ⟨ty, hofName, rfl⟩ : ∃ ty, Ty.ofName? name = some ty ∧ annotated? = some ty := by
    rw [show line.ty? = some name from hname, Option.mapM_some] at hannotated
    obtain ⟨ty, hread, hsome⟩ := map_eq_ok.1 hannotated
    unfold readTy at hread
    split at hread
    · next found hfound =>
      cases hread
      exact ⟨_, hfound, hsome.symm⟩
    · cases hread
  refine ⟨ty, hofName, fun hreturn => ?_⟩
  cases hbinds with
  | nothing =>
    obtain ⟨b, hgive, -⟩ := call_eq_done hcall
    obtain ⟨outputs, rfl⟩ := Builder.Call.eq_ret_of_give hgive
    exact absurd hasks.mnemonic hreturn
  | @value v _ actual _ hactual hsame =>
    obtain ⟨ty', hresultTy, hvalue⟩ :=
      hassembled.built.consistent.owned.result_origin _ v (hemits.result v rfl)
    rw [valueTy_eq_ok_iff, hvalue] at hactual
    cases hactual
    rw [hresultTy, hsame ty rfl]

/-- **The results of lines that are built have the annotated types.** -/
theorem Assembled.annotated {lines : List Line} (hs : Assembled s p start done names)
    (h : Listing.namesAfter p lines names s = .done names' s') :
    ∃ ops, Assembled s' p start (done ++ ops) names' ∧ Extends s s' ∧
      List.Forall₂ (fun line o => line.Annotates s' o) lines ops := by
  induction lines generalizing names s done with
  | nil =>
    cases h
    exact ⟨[], by rwa [List.append_nil], .refl _, .nil⟩
  | cons line rest ih =>
    rw [Listing.namesAfter, List.foldlM_cons] at h
    obtain ⟨names₁, s₁, hline, hrest⟩ := Edit.bind_eq_done.1 h
    obtain ⟨hs₁, hextends₁, hfirst⟩ := hs.annotated_line hline
    obtain ⟨ops, hs', hextends, hmore⟩ := ih hs₁ hrest
    rw [List.append_assoc, List.singleton_append] at hs'
    exact ⟨_ :: ops, hs', hextends₁.trans hextends, .cons (hfirst.extends hextends) hmore⟩

end Listing

/-- **Annotated types are those of the results**, line by line: if a text is read as a program, the
type that a line is annotated with exists, and unless the line is a return its operation has a
result of this type. -/
theorem Program.read_annotated {s₀ s : Store} {p : Program} (hs₀ : s₀.Reachable) {text : String}
    {listing : Listing} (htext : Listing.ofText text = .ok listing)
    (hread : Program.read text s₀ = .done p s) :
    ∃ ops, p.ops s = .ok ops ∧ List.Forall₂ (fun line o => ∀ name ∈ line.ty?,
      ∃ ty, Ty.ofName? name = some ty ∧ (line.mnemonic ≠ "return" →
        s.resultTy? o = some ty ∧ ∃ v, s.result? o = some v ∧ s.valueTy v = .ok ty))
      listing.lines ops := by
  rw [Program.read_listing htext] at hread
  obtain ⟨names, names', s₁, hcreate, hlines⟩ := assemble_eq_done.1 hread
  obtain ⟨-, hs₁, -⟩ := Header.create_done hs₀.consistent hcreate
  obtain ⟨ops, hs, -, hall⟩ := hs₁.annotated hlines
  refine ⟨ops, hs.built.listed, hall.imp fun line o h name hname => ?_⟩
  obtain ⟨ty, hofName, hresultTy⟩ := h name hname
  refine ⟨ty, hofName, fun hreturn => ⟨hresultTy hreturn, ?_⟩⟩
  have howned := hs.built.consistent.owned
  have hsome := howned.result_isSome o
  rw [hresultTy hreturn] at hsome
  obtain ⟨v, hv⟩ := Option.isSome_iff_exists.1 hsome
  obtain ⟨actual, hactual, hvalue⟩ := howned.result_origin o v hv
  obtain rfl := Option.some.inj ((hresultTy hreturn).symm.trans hactual)
  exact ⟨v, hv, valueTy_eq_ok_iff.2 (congrArg (Option.map (·.ty)) hvalue)⟩

/-- The text of a program whose return is annotated, with a type that no value of it has. -/
def labelledText : String :=
  "program @labelled(%a: i8) \x7b
  %b = not %a : i8
  return %b : f64
\x7d
"

theorem Program.read_annotated_labelled :
    ∃ p s listing ops, Program.read labelledText empty = .done p s ∧
      Listing.ofText labelledText = .ok listing ∧ p.ops s = .ok ops ∧
      List.Forall₂ (fun line o => ∀ name ∈ line.ty?,
        ∃ ty, Ty.ofName? name = some ty ∧ (line.mnemonic ≠ "return" →
          s.resultTy? o = some ty ∧ ∃ v, s.result? o = some v ∧ s.valueTy v = .ok ty))
        listing.lines ops := by
  have hdone : (Program.read labelledText empty).done?.isSome = true := by decide +kernel
  obtain ⟨⟨p, s⟩, hdone⟩ := Option.isSome_iff_exists.1 hdone
  have hread := Outcome.done?_eq_some_iff.1 hdone
  obtain ⟨listing, _, hcheck, -⟩ := Edit.bind_eq_done.1 hread
  have htext := (check_done hcheck).1
  obtain ⟨ops, hops, hall⟩ := Program.read_annotated .empty htext hread
  exact ⟨p, s, listing, ops, hread, htext, hops, hall⟩

/-- **The type of a return is ignored**: the text is read, and the line of the return is annotated,
but its operation has no result. -/
theorem Program.read_labelled :
    ∃ p s listing, Program.read labelledText empty = .done p s ∧
      Listing.ofText labelledText = .ok listing ∧ p.ops s = .ok [⟨0⟩, ⟨1⟩] ∧
      (listing.lines[1]?.bind (·.ty?)) = some "f64" ∧ Ty.ofName? "f64" = some .double ∧
      s.result? ⟨1⟩ = none := by
  have hfound : ((Program.read labelledText empty).done?.any fun found =>
      found.1.ops found.2 = .ok [⟨0⟩, ⟨1⟩] && found.2.result? ⟨1⟩ = none) = true := by
    decide +kernel
  obtain ⟨⟨p, s⟩, hdone, hfound⟩ := (Option.any_eq_true _ _).1 hfound
  simp only [Bool.and_eq_true, decide_eq_true_eq] at hfound
  have hread := Outcome.done?_eq_some_iff.1 hdone
  obtain ⟨listing, _, hcheck, -⟩ := Edit.bind_eq_done.1 hread
  have htext := (check_done hcheck).1
  have hty : ((Listing.ofText labelledText).toOption.any fun listing =>
      (listing.lines[1]?.bind (·.ty?)) = some "f64") = true := by decide +kernel
  rw [htext] at hty
  exact ⟨p, s, listing, hread, htext, hfound.1, of_decide_eq_true hty, by decide, hfound.2⟩

end Mba
