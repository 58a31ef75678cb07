import TaggedWire.Value.Basic

namespace TaggedWire

namespace Value

mutual

/-- Applies `f` to every value inside a value and then to what became of the value. -/
def rebuild (f : Value → Value) : Value → Value
  | pointer v => f (pointer (v.rebuild f))
  | object (.plain fields) => f (object (.plain (rebuildAll f fields)))
  | object (.custom i p fields) => f (object (.custom i p (rebuildAll f fields)))
  | array k items => f (array k (rebuildAll f items))
  | map k v entries => f (map k v (rebuildEntries f entries))
  | v => f v

def rebuildAll (f : Value → Value) : List Value → List Value
  | [] => []
  | v :: vs => v.rebuild f :: rebuildAll f vs

def rebuildEntries (f : Value → Value) : List (Value × Value) → List (Value × Value)
  | [] => []
  | (k, v) :: rest => (k.rebuild f, v.rebuild f) :: rebuildEntries f rest

end

theorem rebuildAll_eq (f : Value → Value) (vs : List Value) :
    rebuildAll f vs = vs.map (rebuild f) := by
  induction vs with
  | nil => rfl
  | cons v vs ih => rw [rebuildAll, ih, List.map_cons]

theorem rebuildEntries_eq (f : Value → Value) (es : List (Value × Value)) :
    rebuildEntries f es = es.map fun e ↦ (e.1.rebuild f, e.2.rebuild f) := by
  induction es with
  | nil => rfl
  | cons e es ih => rw [rebuildEntries, ih, List.map_cons]

def ofByte (b : UInt8) : Value :=
  int ⟨.u8, b.toNat, by simp [IntKind.lowest, IntKind.signed],
    by have := b.toNat_lt; simp [IntKind.highest, IntKind.signed, IntKind.width, capacity]; omega⟩

/-- A byte string as the array of its bytes, a map as the array of its entries. -/
def asArray : Value → Value
  | bytes bs => array (.int .u8) (bs.map ofByte)
  | map _ _ entries => array .object (entries.map fun (k, v) ↦ object (.plain [k, v]))
  | v => v

/-- An empty array of texts looks on the wire like an empty array of numbers. -/
def mergeEmpty : Value → Value
  | array .text [] => array (.int .u32) []
  | v => v

def flatten (v : Value) : Value := v.rebuild asArray

/-- What a reader without a schema can know of a value. -/
def schemaless (v : Value) : Value := v.rebuild (mergeEmpty ∘ asArray)

end Value

end TaggedWire
