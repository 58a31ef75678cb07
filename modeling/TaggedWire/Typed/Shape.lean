import TaggedWire.Kind

namespace TaggedWire

/-- A static type. A record is named, so that it can hold optional records of its own name. -/
inductive Shape
  | bool
  | int (k : IntKind)
  | float (k : FloatKind)
  | text
  | bytes
  | object
  | boxed (s : Shape)
  | option (s : Shape)
  | list (s : Shape)
  | orderedMap (key value : Shape)
  | hashedMap (key value : Shape)
  | record (name : String)
  deriving DecidableEq

abbrev Schema := String → List Shape

namespace Shape

def kind : Shape → Kind
  | bool => .bool
  | int k => .int k
  | float k => .float k
  | text => .text
  | bytes | list _ => .array
  | object | record _ => .object
  | boxed s => s.kind
  | option _ => .pointer
  | orderedMap .. | hashedMap .. => .map

end Shape

end TaggedWire
