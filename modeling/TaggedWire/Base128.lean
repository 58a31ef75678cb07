import TaggedWire.Fault

namespace TaggedWire

namespace Base128

/-- Seven bits to a byte, low bits first; every byte but the last has its top bit set. -/
def ofNat (n : Nat) : List UInt8 :=
  if n < 128 then [n.toUInt8] else (n % 128 + 128).toUInt8 :: ofNat (n / 128)
termination_by n
decreasing_by omega

/-- The last byte's second highest bit is the sign, so the bytes end where it can stand there. -/
def ofInt (v : Int) : List UInt8 :=
  if -64 ≤ v ∧ v < 64 then [(v % 128).toNat.toUInt8]
  else (v % 128 + 128).toNat.toUInt8 :: ofInt (v / 128)
termination_by v.natAbs
decreasing_by omega

def bitLength (n : Nat) : Nat := if n = 0 then 0 else n.log2 + 1

def natLength (n : Nat) : Nat := max 1 ((bitLength n + 6) / 7)

/-- How many bytes `ofInt v` has: one bit goes to the sign. -/
def intLength (v : Int) : Nat :=
  (bitLength (if v < 0 then -v - 1 else v).toNat + 7) / 7

def maxLength (width : Nat) : Nat := (8 * width + 6) / 7

def widths : List Nat := [1, 2, 4, 8]

def writeNat (width n : Nat) : Except CodecFault (List UInt8) :=
  if width ∉ widths then .error (.badWidth width)
  else if capacity width ≤ n then .error (.unsignedRange width n)
  else .ok (ofNat n)

def FitsSigned (width : Nat) (v : Int) : Prop :=
  -(capacity width / 2 : Nat) ≤ v ∧ v < (capacity width / 2 : Nat)

instance (width : Nat) (v : Int) : Decidable (FitsSigned width v) :=
  inferInstanceAs (Decidable (_ ∧ _))

def writeInt (width : Nat) (v : Int) : Except CodecFault (List UInt8) :=
  if width ∉ widths then .error (.badWidth width)
  else if ¬ FitsSigned width v then .error (.signedRange width v)
  else .ok (ofInt v)

/-- A result and the bytes left after it; a failed reader has consumed what it looked at. -/
abbrev Reading (α : Type) := Except CodecFault α × List UInt8

/-- The seven bits of a byte that belong to the number. -/
def group (b : UInt8) : BitVec 64 := (b &&& 0x7F).toBitVec.setWidth 64

/-- Puts at most `left` groups into the word, the first of them at bit `shift`. A group that loses
bits there is refused. -/
def gatherNat (width : Nat) : (left shift : Nat) → (word : BitVec 64) → List UInt8 → Reading Nat
  | 0, _, _, bytes => (.error (.overlong (maxLength width) width), bytes)
  | _ + 1, _, _, [] => (.error .truncated, [])
  | left + 1, shift, word, b :: bytes =>
    if group b <<< shift >>> shift ≠ group b then (.error .overflow, bytes)
    else
      let word := word ||| group b <<< shift
      if b &&& 0x80 ≠ 0 then gatherNat width left (shift + 7) word bytes
      else if width < 8 ∧ word >>> (8 * width) ≠ 0 then
        (.error (.unsignedExcess width word.toNat), bytes)
      else (.ok word.toNat, bytes)

def readNat (width : Nat) (bytes : List UInt8) : Reading Nat :=
  if width ∉ widths then (.error (.badWidth width), bytes)
  else gatherNat width (maxLength width) 0 0 bytes

/-- The number in a word whose last group came from `b` and ends below bit `top`. A negative one is
filled up with ones. -/
def extend (top : Nat) (b : UInt8) (word : BitVec 64) : Int :=
  (if top < 64 ∧ b &&& 0x40 ≠ 0 then word ||| BitVec.allOnes 64 <<< top else word).toInt

/-- As `gatherNat`, but the bits that a group loses at the top of the word are dropped. -/
def gatherInt (width : Nat) : (left shift : Nat) → (word : BitVec 64) → List UInt8 → Reading Int
  | 0, _, _, bytes => (.error (.overlong (maxLength width) width), bytes)
  | _ + 1, _, _, [] => (.error .truncated, [])
  | left + 1, shift, word, b :: bytes =>
    let word := word ||| group b <<< shift
    if b &&& 0x80 ≠ 0 then gatherInt width left (shift + 7) word bytes
    else
      let v := extend (shift + 7) b word
      if ¬ FitsSigned width v then (.error (.signedExcess width v), bytes) else (.ok v, bytes)

def readInt (width : Nat) (bytes : List UInt8) : Reading Int :=
  if width ∉ widths then (.error (.badWidth width), bytes)
  else gatherInt width (maxLength width) 0 0 bytes

def closing? (bytes : List UInt8) : Option Nat := bytes.findIdx? fun b ↦ b.toNat < 128

def groupsTo (k : Nat) (bytes : List UInt8) : List Nat :=
  (bytes.take (k + 1)).map fun b ↦ b.toNat % 128

def value : List Nat → Nat
  | [] => 0
  | g :: gs => g + 128 * value gs

def signedValue (groups : List Nat) : Int :=
  if groups.getLastD 0 < 64 then value groups
  else value groups - (Nat.pow 128 groups.length : Nat)

end Base128

end TaggedWire
