import TaggedWire.Encoder.Basic
import TaggedWire.Utf16
import TaggedWire.Value.Basic

namespace TaggedWire

namespace Kind

def code (k : Kind) : Except Fault Tag :=
  if Tag.ofKind k = Tag.unmapped then .error (.unsupported k) else .ok (Tag.ofKind k)

/-- The code in the tag of an array: that of texts is the code of a number. -/
def elementCode : Kind → Except Fault Tag
  | text => .ok Tag.u32
  | object => .ok Tag.object
  | int k => (int k).code
  | k => .error (.unsupportedElement k)

end Kind

/-- The tag of a value that is written as a tag alone, but for the flag that says so. -/
def Value.emptyTag : Value → Except Fault Tag
  | .bool b => .ok (Tag.ofBool b)
  | .text _ => .ok Tag.text.asArray
  | .bytes _ => .ok Tag.u8.asArray
  | .array k _ => return (← k.elementCode).asArray
  | .map .. => .ok Tag.arrayBit
  | v => v.kind.code

namespace Write

def unlessZero (v : Value) (w : Write) : Write :=
  if v.isZero then do put [(← lift v.emptyTag).asEmpty] else w

def count (n : Nat) : Write :=
  if n < capacity 4 then unsigned 4 n else throw (.fault (.codec (.count n)))

def native (k : Kind) (write : Nat → Write) : Write := do
  match k.width? with
  | none => throw (.fault (.unsupported k))
  | some width =>
    put [← lift k.code]
    write width

def byte (b : UInt8) : Write :=
  if b = 0 then put [Tag.u8.asEmpty]
  else do
    put [Tag.u8]
    put [b]

def integer (n : Integer) : Write :=
  match n.kind with
  | .i8 => do
    put [Tag.i8]
    put [(Int8.ofInt n.val).toUInt8]
  | .u8 => byte n.val.toNat.toUInt8
  | .i16 | .i32 | .i64 => native (.int n.kind) (signed · n.val)
  | .u16 | .u32 | .u64 => native (.int n.kind) (unsigned · n.val.toNat)

def text (s : String) : Write := do
  let units := Utf16.encode s.toList
  put [Tag.text.asArray]
  count units.length
  units.forM fun (u : UInt16) ↦ put [u.toUInt8, (u >>> 8).toUInt8]

/-- Integer arrays have a tag only under one of the options. -/
def integersTag (code : Except Fault Tag) : Write := do
  if (← get).options.integerArrays = .tagged then put [(← lift code).asArray]

def bytes (bs : List UInt8) : Write := do
  integersTag (.ok Tag.u8)
  count bs.length
  bs.forM byte

def arrayTag : Kind → Write
  | .text => put [Tag.u32]
  | .object => put [Tag.object.asArray]
  | .int k => integersTag (Kind.int k).code
  | k => throw (.fault (.unsupportedElement k))

def check (expected : Kind) (v : Value) : Write :=
  if v.kind = expected then pure () else throw (.fault (.kindMismatch expected v.kind))

end Write

end TaggedWire
