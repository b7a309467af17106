/-!
# Numbers of operations, values and blocks

Each kind of entry of a store is numbered from `0` on its own, in order of creation, and a number is
never used twice.

Out of scope: a bound on the numbers. A store never runs full.
-/

namespace Mba

/-- The number of an operation. -/
structure OpId where
  index : Nat
  deriving DecidableEq, Repr

instance : ToString OpId := ⟨fun o => s!"op{o.index}"⟩

/-- The number of a value. -/
structure ValueId where
  index : Nat
  deriving DecidableEq, Repr

instance : ToString ValueId := ⟨fun v => s!"v{v.index}"⟩

/-- The number of a block. -/
structure BlockId where
  index : Nat
  deriving DecidableEq, Repr

instance : ToString BlockId := ⟨fun b => s!"block{b.index}"⟩

end Mba
