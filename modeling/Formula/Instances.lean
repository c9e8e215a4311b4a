/-!
# Instances

Powers of natural numbers and of integers are those of the core library wherever a library has
others that agree with them, so that a definition means the same whatever is imported beside it.
-/

namespace Formula

-- above the priority of other default instances, so that the order of the imports does not matter
@[default_instance 20000]
instance (priority := high) powOfNatPow {α : Type} [NatPow α] : Pow α Nat := instPowNat

end Formula
