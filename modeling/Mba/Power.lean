/-!
# Powers

A power is that of the core library in every module, whatever other instances of powers the module
has in scope.
-/

namespace Mba

@[default_instance 20000]
instance (priority := high) instPow {α : Type} [NatPow α] : Pow α Nat := instPowNat

end Mba
