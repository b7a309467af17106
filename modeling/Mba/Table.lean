/-!
# Tables

A table gives some of the numbers an entry each. It grows when an entry is written beyond its end,
and reading a number without an entry gives nothing.

Results:
* `get?_insert`: a write is seen at its own number and nowhere else.
* `get?_empty`: the empty table has no entry.
-/

namespace Mba

/-- Entries of type `α` for some of the natural numbers. -/
structure Table (α : Type) where
  rows : Array (Option α)

namespace Table

variable {α : Type}

/-- The table without entries. -/
def empty : Table α := ⟨#[]⟩

/-- The entry at `i`. -/
def get? (t : Table α) (i : Nat) : Option α :=
  t.rows[i]?.join

/-- The table with the entry at `i` set to `a`. -/
def insert (t : Table α) (i : Nat) (a : α) : Table α :=
  if h : i < t.rows.size then ⟨t.rows.set i (some a)⟩
  else ⟨(t.rows ++ Array.replicate (i - t.rows.size) none).push (some a)⟩

/-- Whether `i` has an entry. -/
def contains (t : Table α) (i : Nat) : Bool :=
  (t.get? i).isSome

@[simp]
theorem get?_empty (i : Nat) : (empty : Table α).get? i = none := by
  simp [get?, empty]

/-- **A write is seen at its own number and nowhere else.** -/
theorem get?_insert (t : Table α) (i j : Nat) (a : α) :
    (t.insert i a).get? j = if i = j then some a else t.get? j := by
  unfold insert get?
  split
  · next h =>
    rw [Array.getElem?_set]
    split <;> simp
  · next h =>
    rw [Array.getElem?_push]
    have hsize : (t.rows ++ Array.replicate (i - t.rows.size) none).size = i := by
      simp; omega
    rw [hsize]
    by_cases hij : j = i
    · simp [hij]
    · rw [if_neg hij, if_neg (Ne.symm hij)]
      rw [Array.getElem?_append]
      split
      · rfl
      · next hj =>
        have : t.rows[j]? = none := by simp; omega
        rw [this, Array.getElem?_replicate]
        split <;> rfl

end Table

/-- A set of natural numbers. -/
abbrev Marks := Table Unit

namespace Marks

/-- The set of the numbers in a list. -/
def ofList (numbers : List Nat) : Marks :=
  numbers.foldl (fun marks i => Table.insert marks i ()) Table.empty

end Marks

end Mba
