import TaggedWire.Base128

namespace TaggedWire

namespace Base128

inductive Put
  | unsigned (width n : Nat)
  | signed (width : Nat) (v : Int)

inductive Get
  | unsigned (width : Nat)
  | signed (width : Nat)

namespace Put

def val : Put → Int
  | unsigned _ n => n
  | signed _ v => v

def run (buffer : List UInt8) : Put → Except CodecFault (List UInt8)
  | unsigned width n => return buffer ++ (← writeNat width n)
  | signed width v => return buffer ++ (← writeInt width v)

def runAll (buffer : List UInt8) : List Put → Except CodecFault (List UInt8)
  | [] => .ok buffer
  | p :: ps => do runAll (← p.run buffer) ps

end Put

namespace Get

def run : Get → List UInt8 → Reading Int
  | unsigned width, buffer =>
    let (n, rest) := readNat width buffer
    (n.map Int.ofNat, rest)
  | signed width, buffer => readInt width buffer

/-- The integers of the calls in order. The first call that fails is the last one made. -/
def runAll : List Get → List UInt8 → Reading (List Int)
  | [], buffer => (.ok [], buffer)
  | g :: gs, buffer =>
    match g.run buffer with
    | (.error f, rest) => (.error f, rest)
    | (.ok v, rest) =>
      let (vs, rest) := runAll gs rest
      (vs.map (v :: ·), rest)

end Get

/-- The get is of the signedness of the put, and both widths have room for the integer. -/
inductive Put.Matches : Put → Get → Prop
  | unsigned {width width' n : Nat} (hput : width ∈ widths ∧ n < capacity width)
      (hget : width' ∈ widths ∧ n < capacity width') :
      Matches (.unsigned width n) (.unsigned width')
  | signed {width width' : Nat} {v : Int} (hput : width ∈ widths ∧ FitsSigned width v)
      (hget : width' ∈ widths ∧ FitsSigned width' v) :
      Matches (.signed width v) (.signed width')

end Base128

end TaggedWire
