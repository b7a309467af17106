import Mba.Listing.Scan
import Mba.Proofs.Decimal

/-!
# Tokens are taken back

What each scanner takes off the front of a text that starts with a token and goes on with something
that cannot be part of it.

Results:
* `bind_ok`, `bind_eq_ok`, `optional_ok`, `optional_error`: how scanners go on.
* `identifier_append`, `mnemonic_append`, `valueName_append`, `integer_append`, `double_append`: the
  tokens.
* `separated_append`: items with commas between them.
-/

namespace Mba.Listing

/-- The text is at its end, or goes on with a character outside the class. -/
def StopsAt (inClass : Char → Bool) (rest : List Char) : Prop :=
  ∀ c, rest.head? = some c → inClass c = false

theorem stopsAt_nil (inClass : Char → Bool) : StopsAt inClass [] := by
  rintro c ⟨⟩

theorem stopsAt_cons {inClass : Char → Bool} {c : Char} (h : inClass c = false)
    (rest : List Char) : StopsAt inClass (c :: rest) := by
  rintro c ⟨⟩
  exact h

theorem StopsAt.takeWhile_eq {inClass : Char → Bool} {rest : List Char} (h : StopsAt inClass rest) :
    rest.takeWhile inClass = [] := by
  cases rest with
  | nil => rfl
  | cons c rest => simp [h c rfl]

theorem StopsAt.dropWhile_eq {inClass : Char → Bool} {rest : List Char} (h : StopsAt inClass rest) :
    rest.dropWhile inClass = rest := by
  cases rest with
  | nil => rfl
  | cons c rest => simp [h c rfl]

namespace Scanner

/-- A name that does not start with a digit. -/
def isIdentifier : List Char → Bool
  | [] => false
  | c :: rest => isNameStart c && (c :: rest).all isNameChar

/-- An identifier, or two with a point between them. -/
def isMnemonic (name : List Char) : Bool :=
  let head := name.takeWhile isNameChar
  match name.dropWhile isNameChar with
  | [] => isIdentifier head
  | c :: tail => isIdentifier head && c == '.' && isIdentifier tail

/-- The name of a value, without its `%`. -/
def isValueName (name : List Char) : Bool :=
  !name.isEmpty && name.all isNameChar

variable {α β : Type} {text rest : List Char}

/-! ## Scanners one after another -/

theorem bind_ok {m : Scanner α} {next : α → Scanner β} {a : α} (h : m text = .ok (a, rest)) :
    (m >>= next) text = next a rest := by
  show (m text >>= fun (a, rest) => next a rest) = _
  rw [h]
  rfl

theorem bind_error {m : Scanner α} {next : α → Scanner β} (h : m text = .error rest) :
    (m >>= next) text = .error rest := by
  show (m text >>= fun (a, rest) => next a rest) = _
  rw [h]
  rfl

/-- The first of two scanners has found something where both have. -/
theorem bind_eq_ok {m : Scanner α} {next : α → Scanner β} {b : β} :
    (m >>= next) text = .ok (b, rest) ↔
      ∃ a middle, m text = .ok (a, middle) ∧ next a middle = .ok (b, rest) := by
  cases h : m text with
  | ok found =>
    obtain ⟨a, middle⟩ := found
    rw [bind_ok h]
    constructor
    · exact fun hnext => ⟨a, middle, rfl, hnext⟩
    · rintro ⟨a', middle', ⟨⟩, hnext⟩
      exact hnext
  | error middle =>
    rw [bind_error h]
    exact ⟨nofun, fun ⟨_, _, hm, _⟩ => nomatch hm⟩

theorem optional_ok {scan : Scanner α} {a : α} (h : scan text = .ok (a, rest)) :
    optional scan text = .ok (some a, rest) := by
  simp only [optional, h]

theorem optional_error {scan : Scanner α} (h : scan text = .error rest) :
    optional scan text = .ok (none, text) := by
  simp only [optional, h]

/-! ## Runs and tokens -/

theorem takeMany_append {inClass : Char → Bool} {taken : List Char}
    (h : ∀ c ∈ taken, inClass c = true) (hrest : StopsAt inClass rest) :
    takeMany inClass (taken ++ rest) = .ok (taken, rest) := by
  rw [takeMany, List.takeWhile_append_of_pos h, List.dropWhile_append_of_pos h,
    hrest.takeWhile_eq, hrest.dropWhile_eq, List.append_nil]

theorem takeSome_append {inClass : Char → Bool} {taken : List Char}
    (h : ∀ c ∈ taken, inClass c = true) (hne : taken ≠ []) (hrest : StopsAt inClass rest) :
    takeSome inClass (taken ++ rest) = .ok (taken, rest) := by
  rw [takeSome, List.takeWhile_append_of_pos h, List.dropWhile_append_of_pos h,
    hrest.takeWhile_eq, hrest.dropWhile_eq, List.append_nil,
    if_neg (by rwa [List.isEmpty_iff])]

theorem token_append (expected rest : List Char) :
    token expected (expected ++ rest) = .ok ((), rest) := by
  have hprefix : expected.isPrefixOf (expected ++ rest) = true :=
    List.isPrefixOf_iff_prefix.2 (List.prefix_append _ _)
  rw [token, if_pos hprefix, List.drop_left]

theorem token_cons (c : Char) (rest : List Char) : token [c] (c :: rest) = .ok ((), rest) :=
  token_append [c] rest

theorem token_error {c : Char} (h : text.head? ≠ some c) : token [c] text = .error text := by
  have hprefix : [c].isPrefixOf text = false := by
    cases text with
    | nil => rfl
    | cons d rest =>
      have hne : (c == d) = false := beq_eq_false_iff_ne.2 fun heq => h (congrArg some heq.symm)
      simp [List.isPrefixOf, hne]
  rw [token, hprefix]
  rfl

theorem space_eq (text : List Char) : space text = .ok ((), text.dropWhile isSpace) := rfl

theorem blank_eq (text : List Char) : blank text = .ok ((), text.dropWhile isBlank) := rfl

/-! ## Names -/

theorem isNameChar_of_isNameStart {c : Char} (h : isNameStart c = true) : isNameChar c = true := by
  rw [isNameStart, Bool.or_eq_true] at h
  rw [isNameChar, Char.isAlphanum, Bool.or_eq_true, Bool.or_eq_true]
  rcases h with h | h
  · exact .inl (.inl h)
  · exact .inr h

theorem isNameChar_of_isIdentifier {name : List Char} (h : isIdentifier name = true) :
    ∀ c ∈ name, isNameChar c = true := by
  cases name with
  | nil => cases h
  | cons c rest => exact List.all_eq_true.1 (Bool.and_eq_true_iff.1 h).2

/-- What is taken as an identifier is one. -/
theorem isIdentifier_of_identifier {name : List Char}
    (h : identifier text = .ok (name, rest)) : isIdentifier name = true := by
  unfold identifier at h
  split at h
  · next c more =>
    split at h
    · next hstart =>
      cases h
      have hchar : isNameChar c = true := isNameChar_of_isNameStart hstart
      rw [List.takeWhile_cons_of_pos hchar, isIdentifier, hstart, Bool.true_and,
        ← List.takeWhile_cons_of_pos hchar]
      exact List.all_takeWhile
    · cases h
  · cases h

theorem identifier_append {name : List Char} (hname : isIdentifier name = true)
    (hrest : StopsAt isNameChar rest) : identifier (name ++ rest) = .ok (name, rest) := by
  have hchars := isNameChar_of_isIdentifier hname
  cases name with
  | nil => cases hname
  | cons c more =>
    have hstart : isNameStart c = true := (Bool.and_eq_true_iff.1 hname).1
    rw [List.cons_append, identifier, if_pos hstart, ← List.cons_append,
      takeMany_append hchars hrest]

theorem mnemonic_append {name : String} (hname : isMnemonic name.toList = true)
    (hrest : StopsAt isNameChar rest) (hpoint : rest.head? ≠ some '.') :
    mnemonic (name.toList ++ rest) = .ok (name, rest) := by
  have hsplit : name.toList.takeWhile isNameChar ++ name.toList.dropWhile isNameChar =
      name.toList := List.takeWhile_append_dropWhile
  unfold isMnemonic at hname
  dsimp only at hname
  split at hname
  · next hdrop =>
    rw [hdrop, List.append_nil] at hsplit
    rw [hsplit] at hname
    refine (bind_ok (identifier_append hname hrest)).trans ?_
    refine (bind_ok (optional_error (bind_error (token_error hpoint)))).trans ?_
    rw [String.ofList_toList]
    rfl
  · next c tail hdrop =>
    obtain ⟨hfront, htail⟩ := Bool.and_eq_true_iff.1 hname
    obtain ⟨hhead, hc⟩ := Bool.and_eq_true_iff.1 hfront
    obtain rfl : c = '.' := eq_of_beq hc
    rw [hdrop] at hsplit
    rw [← hsplit, List.append_assoc, List.cons_append]
    refine (bind_ok (identifier_append hhead (stopsAt_cons rfl _))).trans ?_
    refine (bind_ok (optional_ok ((bind_ok (token_cons '.' _)).trans
      (identifier_append htail hrest)))).trans ?_
    dsimp only
    rw [hsplit, String.ofList_toList]
    rfl

theorem valueName_append {name : String} (hname : isValueName name.toList = true)
    (hrest : StopsAt isNameChar rest) :
    valueName ('%' :: (name.toList ++ rest)) = .ok (name, rest) := by
  obtain ⟨hne, hchars⟩ := Bool.and_eq_true_iff.1 hname
  have hne' : name.toList ≠ [] := by
    rintro heq
    rw [heq] at hne
    cases hne
  refine (bind_ok (token_cons '%' _)).trans ?_
  refine (bind_ok (takeSome_append (List.all_eq_true.1 hchars) hne' hrest)).trans ?_
  rw [String.ofList_toList]
  rfl

/-! ## Numbers -/

theorem isDigit_of_mem_toDigits {n : Nat} : ∀ c ∈ Nat.toDigits 10 n, c.isDigit = true :=
  fun _ => Nat.isDigit_of_mem_toDigits (by decide) (by decide)

theorem head?_toDigits_append (n : Nat) (rest : List Char) :
    (Nat.toDigits 10 n ++ rest).head? = (Nat.toDigits 10 n).head? := by
  cases h : Nat.toDigits 10 n with
  | nil => exact absurd h Nat.toDigits_ne_nil
  | cons c more => rfl

/-- Only zero has a leading zero. -/
theorem head?_toDigits {n : Nat} (hn : 0 < n) : (Nat.toDigits 10 n).head? ≠ some '0' := by
  induction n using Nat.strongRecOn with
  | ind n ih =>
    rcases Nat.lt_or_ge n 10 with hlt | hge
    · rw [Nat.toDigits_of_lt_base hlt, List.head?_singleton]
      intro heq
      have hchar : ∀ k < 10, 0 < k → k.digitChar ≠ '0' := by decide
      exact hchar n hlt hn (Option.some.inj heq)
    · have hdiv : 0 < n / 10 := Nat.div_pos hge (by decide)
      rw [Nat.toDigits_of_base_le (by decide) hge, head?_toDigits_append]
      exact ih _ (Nat.div_lt_self hn (by decide)) hdiv

theorem naturalDigits_toDigits (n : Nat) (hrest : StopsAt Char.isDigit rest) :
    naturalDigits (Nat.toDigits 10 n ++ rest) = .ok (Nat.toDigits 10 n, rest) := by
  rcases Nat.eq_zero_or_pos n with rfl | hn
  · rfl
  · unfold naturalDigits
    split
    · next more heq =>
      have hhead := congrArg List.head? heq
      rw [head?_toDigits_append] at hhead
      exact absurd hhead (head?_toDigits hn)
    · exact takeSome_append isDigit_of_mem_toDigits Nat.toDigits_ne_nil hrest

theorem integer_append {value : Int} (hlow : -2 ^ 63 ≤ value) (hhigh : value < 2 ^ 63)
    (hrest : StopsAt Char.isDigit rest) :
    integer ((toString value).toList ++ rest) = .ok (value, rest) := by
  have hvalue : ∀ n : Nat, ((Nat.ofDigitChars 10 (Nat.toDigits 10 n) 0 : Nat) : Int) = n := by
    intro n
    rw [Nat.ofDigitChars_ten_toDigits]
  rw [Int.toString_eq_repr, Int.repr_eq_if]
  split
  · next hnonneg =>
    rw [Nat.toList_repr]
    have hsign : (Nat.toDigits 10 value.toNat ++ rest).head? ≠ some '-' := by
      rw [head?_toDigits_append]
      intro heq
      have hdigit := isDigit_of_mem_toDigits _ (List.mem_of_head? heq)
      exact absurd hdigit (by decide)
    refine (bind_ok (optional_error (token_error hsign))).trans ?_
    refine (bind_ok (naturalDigits_toDigits value.toNat hrest)).trans ?_
    simp only [hvalue, Option.isSome_none, Bool.false_eq_true, if_false,
      Int.toNat_of_nonneg hnonneg]
    rw [if_pos ⟨hlow, hhigh⟩]
    rfl
  · next hneg =>
    rw [String.toList_append, Nat.toList_repr]
    refine (bind_ok (optional_ok (token_cons '-' _))).trans ?_
    refine (bind_ok (naturalDigits_toDigits (-value).toNat hrest)).trans ?_
    have hnat : ((-value).toNat : Int) = -value := Int.toNat_of_nonneg (by omega)
    simp only [hvalue, Option.isSome_some, if_true, hnat, Int.neg_neg]
    rw [if_pos ⟨hlow, hhigh⟩]
    rfl

theorem isDoubleChar_of_isNumberChar {c : Char} (h : Double.IsNumberChar c) :
    isDoubleChar c = true := by
  rcases h with h | rfl | rfl | rfl
  · simp [isDoubleChar, h]
  · rfl
  · rfl
  · rfl

theorem double_append (x : Double) (hrest : StopsAt isDoubleChar rest) :
    double (x.text.toList ++ rest) = .ok (x.canonical, rest) := by
  have hread : Double.read? x.text.toList = some x.canonical := Double.read?_textIn _ x
  have hchars : ∀ c ∈ x.text.toList, isDoubleChar c = true := fun c hc =>
    isDoubleChar_of_isNumberChar (Double.isNumberChar_of_mem_textIn _ hc)
  have hne : x.text.toList ≠ [] := by
    intro heq
    rw [heq] at hread
    cases hread
  refine (bind_ok (takeSome_append hchars hne hrest)).trans ?_
  rw [hread]
  rfl

/-! ## Items with commas between them -/

/-- The items behind the first one, each with a comma and a blank before it. -/
def moreItems (render : α → List Char) (xs : List α) : List Char :=
  xs.flatMap fun x => ',' :: ' ' :: render x

theorem intercalate_eq (render : α → List Char) (x : α) (xs : List α) :
    [',', ' '].intercalate ((x :: xs).map render) = render x ++ moreItems render xs := by
  induction xs generalizing x with
  | nil => simp [moreItems]
  | cons y ys ih =>
    rw [List.map_cons, List.map_cons, List.intercalate_cons_cons, ← List.map_cons, ih]
    simp [moreItems]

/-- A scanner takes items back: with or without a blank before them, from a text that goes on with
an end, of which it also takes what `after` leaves out. -/
structure TakesItems (item : Scanner α) (render : α → List Char) (ends : List Char → Prop)
    (after : List Char → List Char) (xs : List α) : Prop where
  take : ∀ x ∈ xs, ∀ rest, ends rest → item (render x ++ rest) = .ok (x, after rest)
  takeSpaced : ∀ x ∈ xs, ∀ rest, ends rest → item (' ' :: (render x ++ rest)) = .ok (x, after rest)
  ends_comma : ∀ rest, ends (',' :: rest)
  after_comma : ∀ rest, after (',' :: rest) = ',' :: rest

namespace TakesItems

variable {item : Scanner α} {render : α → List Char} {ends : List Char → Prop}
  {after : List Char → List Char} {x : α} {xs : List α}

theorem tail (h : TakesItems item render ends after (x :: xs)) :
    TakesItems item render ends after xs :=
  ⟨fun y hy => h.take y (List.mem_cons_of_mem _ hy),
    fun y hy => h.takeSpaced y (List.mem_cons_of_mem _ hy), h.ends_comma, h.after_comma⟩

theorem ends_moreItems (h : TakesItems item render ends after xs) (hrest : ends rest) :
    ends (moreItems render xs ++ rest) := by
  cases xs with
  | nil => exact hrest
  | cons x xs => exact h.ends_comma _

theorem itemsAfterComma (h : TakesItems item render ends after xs) (hrest : ends rest)
    (hstop : (after rest).head? ≠ some ',') {fuel : Nat} (hfuel : xs.length ≤ fuel) :
    itemsAfterComma item fuel (after (moreItems render xs ++ rest)) = .ok (xs, after rest) := by
  induction xs generalizing fuel with
  | nil =>
    rw [moreItems, List.flatMap_nil, List.nil_append]
    cases fuel with
    | zero => rfl
    | succ fuel => exact bind_ok (optional_error (bind_error (token_error hstop)))
  | cons x xs ih =>
    obtain ⟨fuel, rfl⟩ : ∃ k, fuel = k + 1 := ⟨fuel - 1, by rw [List.length_cons] at hfuel; omega⟩
    have htext : moreItems render (x :: xs) ++ rest =
        ',' :: ' ' :: (render x ++ (moreItems render xs ++ rest)) := by
      simp [moreItems]
    rw [htext, h.after_comma]
    have hitem := h.takeSpaced x List.mem_cons_self _ (h.tail.ends_moreItems hrest)
    refine (bind_ok (optional_ok ((bind_ok (token_cons ',' _)).trans hitem))).trans ?_
    exact bind_ok (ih h.tail (by simpa using hfuel))

/-- **Items with commas between them are taken back.** -/
theorem separated_append (h : TakesItems item render ends after (x :: xs)) (hrest : ends rest)
    (hstop : (after rest).head? ≠ some ',') :
    separated item ([',', ' '].intercalate ((x :: xs).map render) ++ rest) =
      .ok (x :: xs, after rest) := by
  have hlength : xs.length ≤ (after (moreItems render xs ++ rest)).length := by
    cases xs with
    | nil => exact Nat.zero_le _
    | cons y ys =>
      have htext : after (moreItems render (y :: ys) ++ rest) = moreItems render (y :: ys) ++ rest :=
        h.after_comma _
      have hitems : ∀ zs : List α, zs.length ≤ (moreItems render zs).length := by
        intro zs
        induction zs with
        | nil => exact Nat.zero_le _
        | cons z zs ih =>
          rw [moreItems, List.flatMap_cons, ← moreItems, List.length_append, List.length_cons,
            List.length_cons, List.length_cons]
          omega
      rw [htext, List.length_append]
      exact Nat.le_add_right_of_le (hitems _)
  rw [intercalate_eq, List.append_assoc]
  refine (bind_ok (h.take x List.mem_cons_self _ (h.tail.ends_moreItems hrest))).trans ?_
  refine (bind_ok (m := get) rfl).trans ?_
  exact bind_ok (h.tail.itemsAfterComma hrest hstop hlength)

end TakesItems

end Scanner

end Mba.Listing
