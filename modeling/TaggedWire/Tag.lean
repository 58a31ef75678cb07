import TaggedWire.Kind

namespace TaggedWire

/-- The byte that opens a value: a base code and two flags. -/
abbrev Tag := UInt8

namespace Tag

def object : Tag := 0x00
def pointer : Tag := 0x01
def boolTrue : Tag := 0x02
def boolFalse : Tag := 0x12
def i8 : Tag := 0x03
def u8 : Tag := 0x04
def i16 : Tag := 0x05
def u16 : Tag := 0x06
def i32 : Tag := 0x07
def u32 : Tag := 0x08
def i64 : Tag := 0x09
def u64 : Tag := 0x0A
def text : Tag := 0x0D

/-- Codes that the format keeps for itself and no value opens with. -/
def reserved : List Tag := [0x0B, 0x0C, 0x0E]

def payloadBegin : Tag := 0x0F
def payloadEnd : Tag := 0x10
def objectEnd : Tag := 0x11

def arrayBit : Tag := 0x40
def emptyBit : Tag := 0x80
def baseMask : Tag := ~~~(arrayBit ||| emptyBit)

def unmapped : Tag := 0xFF

def ofInt : IntKind → Tag
  | .i8 => i8 | .u8 => u8 | .i16 => i16 | .u16 => u16
  | .i32 => i32 | .u32 => u32 | .i64 => i64 | .u64 => u64

def ofBool (b : Bool) : Tag := if b then boolTrue else boolFalse

/-- A boolean lives in its tag, so the kind alone has no code. -/
def ofKind : Kind → Tag
  | .int k => ofInt k
  | .text => text
  | .pointer => pointer
  | .object | .map => object
  | .bool | .float _ | .array => unmapped

def asArray (t : Tag) : Tag := t ||| arrayBit
def asEmpty (t : Tag) : Tag := t ||| emptyBit

def base (t : Tag) : Tag := t &&& baseMask
def isArray (t : Tag) : Bool := t &&& arrayBit != 0
def isEmpty (t : Tag) : Bool := t &&& emptyBit != 0

end Tag

end TaggedWire
