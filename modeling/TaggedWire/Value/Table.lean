import TaggedWire.Value.Equality

namespace TaggedWire

structure Table where
  keyKind : Kind
  valueKind : Kind
  entries : List (Value × Value) := []

namespace Table

def put (key value : Value) : List (Value × Value) → List (Value × Value)
  | [] => [(key, value)]
  | (k, v) :: rest => if k.same key then (k, value) :: rest else (k, v) :: put key value rest

/-- The first entry with an equal key takes the value and keeps its key and its place. -/
def insert (t : Table) (key value : Value) : Table :=
  { t with entries := put key value t.entries }

def insertAll (t : Table) (pairs : List (Value × Value)) : Table :=
  pairs.foldl (fun t p ↦ t.insert p.1 p.2) t

def toValue (t : Table) : Value := .map t.keyKind t.valueKind t.entries

def firsts : List (Value × Value) → List (Value × Value)
  | [] => []
  | p :: pairs => p :: (firsts pairs).filter fun q ↦ !p.1.same q.1

end Table

namespace Value

def insert? (v key value : Value) : Option Value :=
  match v with
  | map k e entries => some ((Table.mk k e entries).insert key value).toValue
  | _ => none

def push? (v item : Value) : Option Value :=
  match v with
  | array k items => some (array k (items ++ [item]))
  | object o => some (object (o.push item))
  | _ => none

end Value

end TaggedWire
