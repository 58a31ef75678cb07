import TaggedWire.Base128
import TaggedWire.Buffers
import TaggedWire.Frame
import TaggedWire.Options

namespace TaggedWire

structure Encoder where
  options : Options := {}
  buffers : Buffers := {}
  /-- How many values are being written, one inside the other. -/
  depth : Nat := 0
  depth_le : depth ≤ options.maxDepth := by simp

namespace Encoder

def fresh (options : Options) : Encoder := { options }

def put (e : Encoder) (bytes : List UInt8) : Encoder :=
  { e with buffers := e.buffers.put bytes }

def enter (e : Encoder) : Encoder := { e with buffers := e.buffers.enter }

def deepen (e : Encoder) (h : e.depth < e.options.maxDepth) : Encoder :=
  { e with depth := e.depth + 1, depth_le := h }

def rise (e : Encoder) : Encoder :=
  { e with depth := e.depth - 1, depth_le := Nat.le_trans (Nat.sub_le ..) e.depth_le }

def scratch (e : Encoder) : Encoder := { e with buffers := {} }

def finish (e : Encoder) : Except Defect (List UInt8) := e.buffers.finish

def describe (e : Encoder) : String :=
  let arrays := match e.options.integerArrays with
    | .untagged => "Untagged"
    | .tagged => "Tagged"
  s!"Encoder \x7b open_scopes: {e.buffers.nesting}, depth: {e.depth}, options: " ++
    s!"EncodeOptions \x7b max_depth: {e.options.maxDepth}, " ++
    s!"sorted_maps: {e.options.sortedMaps}, integer_arrays: {arrays} \x7d \x7d"

@[simp] theorem put_nil (e : Encoder) : e.put [] = e := by
  simp [put]

@[simp] theorem put_put (e : Encoder) (xs ys : List UInt8) :
    (e.put xs).put ys = e.put (xs ++ ys) := by
  simp [put]

@[simp] theorem rise_deepen (e : Encoder) (h : e.depth < e.options.maxDepth) :
    (e.deepen h).rise = e := by
  simp [deepen, rise]

@[simp] theorem rise_put_deepen (e : Encoder) (h : e.depth < e.options.maxDepth)
    (bytes : List UInt8) : ((e.deepen h).put bytes).rise = e.put bytes := by
  simp [deepen, rise, put]

end Encoder

/-- A computation on an encoder; what it wrote stays when it fails. -/
abbrev Writing := EStateM Failure Encoder

abbrev Write := Writing Unit

namespace Writing

variable {α β : Type} {w : Writing α} {e m : Encoder}

theorem bind_of_ok {f : α → Writing β} {a : α} (h : w e = .ok a m) : (w >>= f) e = f a m := by
  simp only [bind, EStateM.bind, h]

theorem bind_of_error {f : α → Writing β} {g : Failure} (h : w e = .error g m) :
    (w >>= f) e = .error g m := by
  simp only [bind, EStateM.bind, h]

end Writing

namespace Write

def put (bytes : List UInt8) : Write := fun e ↦ .ok () (e.put bytes)

def lift {α : Type} : Except Fault α → Writing α
  | .ok a => pure a
  | .error f => throw (.fault f)

def send (bytes : Except Fault (List UInt8)) : Write := do put (← lift bytes)

def unsigned (width n : Nat) : Write := send ((Base128.writeNat width n).mapError .codec)

def signed (width : Nat) (v : Int) : Write := send ((Base128.writeInt width v).mapError .codec)

def leave : Writing (List UInt8) := fun e ↦
  match e.buffers.leave with
  | .ok (bytes, buffers) => .ok bytes { e with buffers }
  | .error d => .error (.defect d) e

def frame (payload : List UInt8) : Write := do
  let size := payload.length + Frame.headerSize + Frame.markerCount
  if size < capacity Frame.headerSize then
    put [Tag.object]
    put (Frame.writeLE Frame.headerSize size)
    put [Tag.payloadBegin]
    put payload
    put [Tag.payloadEnd]
    put [Tag.objectEnd]
  else throw (.fault (.codec (.objectSize size)))

/-- Gives the body a buffer of its own and frames what it wrote there. When the body fails,
nothing of it is left. -/
def object (body : Write) : Write := fun e ↦
  match body e.enter with
  | .ok () e => (do frame (← leave) : Write) e
  | .error f e => (do let _ ← leave; throw f : Write) e

theorem leave_put_enter (e : Encoder) (bytes : List UInt8) :
    leave (e.enter.put bytes) = .ok bytes e := by
  simp [leave, Encoder.enter, Encoder.put]

theorem object_of_ok {body : Write} {e : Encoder} {bytes : List UInt8}
    (h : body e.enter = .ok () (e.enter.put bytes)) :
    object body e = frame bytes e := by
  simp only [object, h]
  simp only [bind, EStateM.bind, leave_put_enter]

theorem object_of_error {body : Write} {e : Encoder} {bytes : List UInt8} {f : Failure}
    (h : body e.enter = .error f (e.enter.put bytes)) : object body e = .error f e := by
  simp only [object, h, bind, EStateM.bind, leave_put_enter]
  rfl

def deeper (body : Write) : Write := fun e ↦
  if h : e.depth < e.options.maxDepth then
    match body (e.deepen h) with
    | .ok () e => .ok () e.rise
    | .error f e => .error f e.rise
  else .error (.fault (.depthExceeded e.options.maxDepth)) e

/-- What the body writes on a fresh encoder of the same depth and options. -/
def alone (body : Write) : Writing (List UInt8) := fun e ↦
  match body e.scratch with
  | .ok () s =>
    match s.finish with
    | .ok bytes => .ok bytes e
    | .error d => .error (.defect d) e
  | .error f _ => .error f e

def describe : Write := fun e ↦ .ok () (e.put e.describe.toUTF8.toList)

def attempt (body : Write) : Write := fun e ↦
  match body e with
  | .ok () e => .ok () e
  | .error (.fault f) e => .ok () (e.put f.message.toUTF8.toList)
  | .error (.defect d) e => .error (.defect d) e

end Write

end TaggedWire
