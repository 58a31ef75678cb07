import TaggedWire.Encoder.Basic
import TaggedWire.Value.Basic

namespace TaggedWire

def Value.sortKey : Value → Int × String
  | .bool b => (b.toInt, "")
  | .int n => (n.val, "")
  | .text s => (0, s)
  | _ => (0, "")

def Value.keyLE (v w : Value) : Bool :=
  v.sortKey.1 < w.sortKey.1 || (v.sortKey.1 == w.sortKey.1 && v.sortKey.2 ≤ w.sortKey.2)

/-- The order in which the entries of a map are taken. Keys are encoded for it only in a sorted map
whose keys have no natural order. -/
def Write.arrange {α : Type} (k : Kind) (key : α → Value) (encoding : α → Writing (List UInt8))
    (entries : List α) : Writing (List α) := do
  if (← get).options.sortedMaps then
    if k.hasNaturalOrder then return entries.mergeSort fun a b ↦ (key a).keyLE (key b)
    else
      let keyed ← entries.mapM fun a ↦ return (← encoding a, a)
      return (keyed.mergeSort fun a b ↦ a.1 ≤ b.1).map (·.2)
  else return entries

end TaggedWire
