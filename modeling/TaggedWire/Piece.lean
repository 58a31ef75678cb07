import TaggedWire.Base128
import TaggedWire.Frame
import TaggedWire.Number
import TaggedWire.Options
import TaggedWire.Tag

namespace TaggedWire

namespace Piece

-- What a layout is made of. The encoder writes these through calls of its own.

def payload (n : Integer) : List UInt8 :=
  if n.kind.width = 1 then [(n.val % 256).toNat.toUInt8]
  else if n.kind.signed then Base128.ofInt n.val
  else Base128.ofNat n.val.toNat

def integer (n : Integer) : List UInt8 :=
  if n.val = 0 then [(Tag.ofInt n.kind).asEmpty] else Tag.ofInt n.kind :: payload n

def byte (b : UInt8) : List UInt8 :=
  if b = 0 then [Tag.u8.asEmpty] else [Tag.u8, b]

def emptyArray : Kind → Except Fault (List UInt8)
  | .text => .ok [Tag.u32.asArray.asEmpty]
  | .object => .ok [Tag.object.asArray.asEmpty]
  | .int k => .ok [(Tag.ofInt k).asArray.asEmpty]
  | k => .error (.unsupportedElement k)

def integerArrayTag (arrays : IntegerArrays) (k : IntKind) : List UInt8 :=
  match arrays with
  | .untagged => []
  | .tagged => [(Tag.ofInt k).asArray]

/-- What stands before the count of an array: texts have the tag of a number there. -/
def arrayTag (arrays : IntegerArrays) : Kind → Except Fault (List UInt8)
  | .text => .ok [Tag.u32]
  | .object => .ok [Tag.object.asArray]
  | .int k => .ok (integerArrayTag arrays k)
  | k => .error (.unsupportedElement k)

def count (n : Nat) : Except Fault (List UInt8) :=
  if n < capacity 4 then .ok (Base128.ofNat n) else .error (.codec (.count n))

def object (payload : List UInt8) : Except Fault (List UInt8) :=
  if Frame.size payload < capacity Frame.headerSize then .ok (Frame.around payload)
  else .error (.codec (.objectSize (Frame.size payload)))

end Piece

end TaggedWire
