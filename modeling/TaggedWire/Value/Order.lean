import TaggedWire.Value.Basic

namespace TaggedWire

/-- What a key of a kind with a natural order counts as: false comes before true, integers go by
their value and texts by their code points, one after the other. -/
def Value.rank : Value → List Int
  | .bool b => [if b then 1 else 0]
  | .int n => [n.val]
  | .text s => s.toList.map fun c ↦ (c.toNat : Int)
  | _ => []

structure Entry (α β : Type) where
  key : Value
  encoding : α
  whole : β

def Entry.sort {α : Type} (k : Kind) (key : α → Value) (bytes : α → List UInt8) (entries : List α) :
    List α :=
  -- Ranks are compared by `<` alone, since `≤` may stand for another order on lists of integers.
  if k.hasNaturalOrder then entries.mergeSort fun a b ↦ ¬ (key b).rank < (key a).rank
  else entries.mergeSort fun a b ↦ bytes a ≤ bytes b

end TaggedWire
