import TaggedWire.Proofs.Lengths
import TaggedWire.Proofs.Limit

namespace TaggedWire

namespace Value

variable {v : Value} {vs : List Value} {es : List (Value × Value)}

def counted (v : Value) : Nat := v.subvalues.countP isCountedIntegers

def zeros (m n : Nat) : Value := object (.plain (List.replicate m (bytes (List.replicate n 0))))

end Value

end TaggedWire
