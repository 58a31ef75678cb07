import TaggedWire.Encoder.Write
import TaggedWire.Typed.Datum

namespace TaggedWire

def Write.toBytes (options : Options) (w : Write) : Except Failure (List UInt8) :=
  match w (.fresh options) with
  | .ok () e => e.finish.mapError .defect
  | .error f _ => .error f

def Value.encode (options : Options) (v : Value) : Except Failure (List UInt8) :=
  v.write.toBytes options

def Object.encode (options : Options) (o : Object) : Except Failure (List UInt8) :=
  o.write.toBytes options

/-- A message is a reference to an object. Bytes stand for a message that is already encoded. -/
def Value.toMessage (options : Options) : Value → Except Failure (List UInt8)
  | .bytes bs => .ok bs
  | .pointer (.object o) => o.encode options
  | .pointer v => .error (.fault (.invalidInput (.notObject v.kind)))
  | .nil => .error (.fault (.invalidInput .nilReference))
  | v => .error (.fault (.invalidInput (.notReference v.kind)))

def Datum.toMessage (options : Options) (d : Datum) : Except Failure (List UInt8) :=
  (Value.pointer d.toValue).toMessage options

end TaggedWire
