import TaggedWire.Layout

namespace TaggedWire

namespace Value

def sortedBytes (o : Options) (key : Value) : List UInt8 :=
  (key.layout { o with sortedMaps := true } 0).getBytes

mutual

/-- Sorts the entries of every map in a value, at every depth, by the key: in its natural order, or
by its own sorted encoding. -/
def sortDeep (o : Options) : Value → Value
  | pointer v => pointer (v.sortDeep o)
  | object (.plain fields) => object (.plain (sortDeepAll o fields))
  | object (.custom i p fields) => object (.custom i p (sortDeepAll o fields))
  | array k items => array k (sortDeepAll o items)
  | map k v entries =>
    let sorted := Entry.sort k (·.1) (fun e ↦ sortedBytes o e.1) (sortDeepEntries o entries)
    map k v (sorted.map (·.2))
  | v => v

def sortDeepAll (o : Options) : List Value → List Value
  | [] => []
  | v :: vs => v.sortDeep o :: sortDeepAll o vs

def sortDeepEntries (o : Options) : List (Value × Value) → List (Value × (Value × Value))
  | [] => []
  | (k, v) :: rest => (k, (k.sortDeep o, v.sortDeep o)) :: sortDeepEntries o rest

end

end Value

end TaggedWire
