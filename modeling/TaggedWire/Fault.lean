import TaggedWire.Kind

namespace TaggedWire

inductive InputFault
  | notReference (found : Kind)
  | nilReference
  | notObject (found : Kind)
  | stated (text : String)
  deriving DecidableEq

inductive CodecFault
  | badWidth (width : Nat)
  | unsignedRange (width value : Nat)
  | signedRange (width : Nat) (value : Int)
  | truncated
  | overflow
  | overlong (limit width : Nat)
  | unsignedExcess (width value : Nat)
  | signedExcess (width : Nat) (value : Int)
  | objectSize (size : Nat)
  | count (n : Nat)
  | stated (text : String)
  deriving DecidableEq

inductive Fault
  | invalidInput (cause : InputFault)
  | unsupported (kind : Kind)
  | unsupportedElement (kind : Kind)
  | kindMismatch (expected found : Kind)
  | codec (cause : CodecFault)
  | depthExceeded (limit : Nat)
  deriving DecidableEq

def InputFault.text : InputFault → String
  | notReference k => s!"marshal input must be a reference, found {k.name}"
  | nilReference => "marshal input must be a non-nil reference"
  | notObject k => s!"marshal input must reference an object, found {k.name}"
  | stated t => t

def CodecFault.text : CodecFault → String
  | badWidth w => s!"invalid integer width {w}"
  | unsignedRange w n => s!"value {n} does not fit in {w} unsigned bytes"
  | signedRange w v => s!"value {v} does not fit in {w} signed bytes"
  | truncated => "unexpected end of compressed integer"
  | overflow => "compressed integer overflows 64 bits"
  | overlong limit w => s!"compressed integer longer than {limit} bytes for width {w}"
  | unsignedExcess w n => s!"decoded value {n} exceeds {w} unsigned bytes"
  | signedExcess w v => s!"decoded value {v} exceeds {w} signed bytes"
  | objectSize n => s!"object of {n} bytes overflows the length header"
  | count n => s!"{n} elements overflow the 32-bit count"
  | stated t => t

def Fault.message : Fault → String
  | invalidInput c => s!"invalid input: {c.text}"
  | unsupported k => s!"unsupported marshal type {k.name}"
  | unsupportedElement k => s!"unsupported array element type {k.name}"
  | kindMismatch e f => s!"kind mismatch: expected {e.name}, found {f.name}"
  | codec c => s!"codec error: {c.text}"
  | depthExceeded n => s!"nesting depth exceeded limit of {n}"

def Fault.quoting (f : Fault) : Fault := .codec (.stated f.message)

/-- A misuse of the encoder itself, which no step may catch. -/
inductive Defect
  | unmatchedLeave
  | openBuffers
  | customFields
  deriving DecidableEq

def Defect.message : Defect → String
  | unmatchedLeave => "end_scope called without a matching begin_scope"
  | openBuffers => "into_bytes called with open scopes"
  | customFields => "object with a custom marshaler also carries fields"

inductive Failure
  | fault (f : Fault)
  | defect (d : Defect)
  deriving DecidableEq

end TaggedWire
