import TaggedWire.Buffers

namespace TaggedWire

namespace Buffers

def run (b : Buffers) : List Move → Except Defect (List (List UInt8) × Buffers)
  | [] => .ok ([], b)
  | m :: ms => do
    let (bytes?, c) ← b.move m
    let (taken, d) ← c.run ms
    return (bytes?.toList ++ taken, d)

/-- The bytes that are put, in order. Those that a merge moves on are not put again. -/
def puts (ms : List Move) : List UInt8 :=
  ms.flatMap fun
    | .put bytes => bytes
    | _ => []

/-- Every buffer that is entered is merged, and no other. -/
inductive Balanced : List Move → Prop
  | nil : Balanced []
  | put {bytes : List UInt8} {ms : List Move} : Balanced ms → Balanced (.put bytes :: ms)
  | nest {inner ms : List Move} :
      Balanced inner → Balanced ms → Balanced (.enter :: inner ++ .merge :: ms)

end Buffers

end TaggedWire
