import TaggedWire.Kind

namespace TaggedWire

structure Integer where
  kind : IntKind
  val : Int
  lowest_le : kind.lowest ≤ val
  le_highest : val ≤ kind.highest
  deriving DecidableEq

namespace Integer

def ofInt? (k : IntKind) (v : Int) : Option Integer :=
  if h : k.lowest ≤ v ∧ v ≤ k.highest then some ⟨k, v, h.1, h.2⟩ else none

end Integer

/-- The bits of a floating-point number, kept as they came: nothing is computed with them. -/
inductive FloatBits
  | f32 (bits : UInt32)
  | f64 (bits : UInt64)
  deriving DecidableEq

namespace FloatBits

def kind : FloatBits → FloatKind
  | f32 _ => .f32
  | f64 _ => .f64

def magnitude : FloatBits → Nat
  | f32 b => b.toNat % 0x80000000
  | f64 b => b.toNat % 0x8000000000000000

def infinity : FloatKind → Nat
  | .f32 => 0x7F800000
  | .f64 => 0x7FF0000000000000

def isZero (x : FloatBits) : Bool := x.magnitude == 0

def isNaN (x : FloatBits) : Bool := decide (infinity x.kind < x.magnitude)

def identical (x y : FloatBits) : Bool := decide (x = y)

@[simp] theorem identical_iff {x y : FloatBits} : x.identical y = true ↔ x = y := by
  simp [identical]

/-- The two zeros are equal, and a NaN equals nothing. -/
def same (x y : FloatBits) : Bool :=
  x.kind = y.kind && !x.isNaN && !y.isNaN && (x.identical y || x.isZero && y.isZero)

end FloatBits

end TaggedWire
