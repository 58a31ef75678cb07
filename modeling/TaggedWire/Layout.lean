import TaggedWire.Utf16
import TaggedWire.Value.Order
import TaggedWire.Piece

namespace TaggedWire

/-- The bytes of a value, or the fault of its first failing part. -/
abbrev Layout := Except Fault (List UInt8)

namespace Layout

def getBytes (l : Layout) : List UInt8 := l.toOption.getD []

def within (options : Options) (depth : Nat) (inner : Layout) : Layout :=
  if depth < options.maxDepth then inner else .error (.depthExceeded options.maxDepth)

def text (s : String) : Layout := do
  if s.isEmpty then return [Tag.text.asArray.asEmpty]
  else
    let units := Utf16.encode s.toList
    return Tag.text.asArray :: (← Piece.count units.length) ++ Utf16.bytes units

def bytes (arrays : IntegerArrays) (bs : List UInt8) : Layout := do
  if bs.isEmpty then return [Tag.u8.asArray.asEmpty]
  else
    return Piece.integerArrayTag arrays .u8 ++ (← Piece.count bs.length) ++ bs.flatMap Piece.byte

def concat (pieces : List Layout) : Layout :=
  pieces.foldr (fun piece rest ↦ return (← piece) ++ (← rest)) (.ok [])

/-- The entries of a map in the order in which they are written. Where they are sorted by the
encodings of their keys, all of these come before any entry. -/
def order {α : Type} (sorted : Bool) (k : Kind) (key : α → Value) (encoding : α → Layout)
    (entries : List α) : Except Fault (List α) :=
  if sorted then
    let arranged := Entry.sort k key (fun a ↦ (encoding a).getBytes) entries
    if k.hasNaturalOrder then .ok arranged else (fun _ ↦ arranged) <$> entries.mapM encoding
  else .ok entries

end Layout

def Kind.check (expected found : Kind) : Except Fault Unit :=
  if found = expected then .ok () else .error (.kindMismatch expected found)

def Kind.checkEntries (key value : Kind) : List (Value × Value) → Except Fault Unit
  | [] => .ok ()
  | (k, v) :: rest => do
    key.check k.kind
    value.check v.kind
    checkEntries key value rest

open Layout

mutual

/-- The bytes of a value that stands at `depth`, made of the bytes of its parts: there is no buffer
and nothing is taken back. A custom object has no layout, only a program. -/
def Value.body (o : Options) (depth : Nat) : Value → Layout
  | .bool b => .ok [(Tag.ofBool b).asEmpty]
  | .int n => .ok (Piece.integer n)
  | .float x => .error (.unsupported (.float x.kind))
  | .text s => Layout.text s
  | .bytes bs => Layout.bytes o.integerArrays bs
  | .nil => .ok [Tag.pointer.asEmpty]
  | .pointer v => return Tag.pointer :: (← within o depth (v.body o (depth + 1)))
  | .object (.plain fields) => do Piece.object (← concat (Value.fieldBodies o depth fields))
  | .object (.custom ..) => .ok []
  | .array k items => do
    if items.isEmpty then Piece.emptyArray k
    else
      let tag ← Piece.arrayTag o.integerArrays k
      let count ← Piece.count items.length
      return tag ++ count ++ (← concat (Value.itemBodies o depth k items))
  | .map k v entries => do
    if entries.isEmpty then return [Tag.object.asArray.asEmpty]
    else
      k.checkEntries v entries
      let arranged ← order o.sortedMaps k Entry.key Entry.encoding (Value.entryBodies o depth entries)
      let count ← Piece.count entries.length
      return Tag.object.asArray :: count ++ (← concat (arranged.map (·.whole)))

def Value.fieldBodies (o : Options) (depth : Nat) : List Value → List Layout
  | [] => []
  | v :: vs => within o depth (v.body o (depth + 1)) :: Value.fieldBodies o depth vs

def Value.itemBodies (o : Options) (depth : Nat) (k : Kind) : List Value → List Layout
  | [] => []
  | v :: vs =>
    (do k.check v.kind; within o depth (v.body o (depth + 1))) :: Value.itemBodies o depth k vs

def Value.entryBodies (o : Options) (depth : Nat) :
    List (Value × Value) → List (Entry Layout Layout)
  | [] => []
  | (k, v) :: rest =>
    { key := k
      encoding := within o depth (k.body o (depth + 1))
      whole := within o depth do
        let key ← within o (depth + 1) (k.body o (depth + 2))
        let value ← within o (depth + 1) (v.body o (depth + 2))
        Piece.object (key ++ value) } :: Value.entryBodies o depth rest

end

def Value.layout (o : Options) (depth : Nat) (v : Value) : Layout :=
  within o depth (v.body o (depth + 1))

end TaggedWire
