namespace TaggedWire

/-- How many numbers so many bytes can tell apart. -/
def capacity (bytes : Nat) : Nat := Nat.pow 256 bytes

theorem capacity_succ (bytes : Nat) : capacity (bytes + 1) = 256 * capacity bytes :=
  Nat.mul_comm ..

inductive IntKind
  | i8 | u8 | i16 | u16 | i32 | u32 | i64 | u64
  deriving DecidableEq

namespace IntKind

def width : IntKind → Nat
  | i8 | u8 => 1
  | i16 | u16 => 2
  | i32 | u32 => 4
  | i64 | u64 => 8

def signed : IntKind → Bool
  | i8 | i16 | i32 | i64 => true
  | u8 | u16 | u32 | u64 => false

def lowest (k : IntKind) : Int :=
  if k.signed then -(capacity k.width / 2 : Nat) else 0

def highest (k : IntKind) : Int :=
  if k.signed then (capacity k.width / 2 : Nat) - 1 else (capacity k.width : Nat) - 1

def name : IntKind → String
  | i8 => "i8" | u8 => "u8" | i16 => "i16" | u16 => "u16"
  | i32 => "i32" | u32 => "u32" | i64 => "i64" | u64 => "u64"

def all : List IntKind := [i8, u8, i16, u16, i32, u32, i64, u64]

theorem mem_all (k : IntKind) : k ∈ all := by
  cases k <;> decide

end IntKind

inductive FloatKind
  | f32 | f64
  deriving DecidableEq

inductive Kind
  | bool
  | int (k : IntKind)
  | float (k : FloatKind)
  | text
  | pointer
  | object
  | array
  | map
  deriving DecidableEq

namespace Kind

def name : Kind → String
  | bool => "bool"
  | int k => k.name
  | float .f32 => "f32"
  | float .f64 => "f64"
  | text => "string"
  | pointer => "pointer"
  | object => "object"
  | array => "array"
  | map => "map"

def all : List Kind :=
  bool :: IntKind.all.map int ++ [float .f32, float .f64, text, pointer, object, array, map]

def ofName? (s : String) : Option Kind :=
  all.find? (·.name == s)

def width? : Kind → Option Nat
  | int k => some k.width
  | _ => none

def isInteger (k : Kind) : Bool := k.width?.isSome

/-- Keys of these kinds sort by what they hold; all others sort by their encoding. -/
def hasNaturalOrder : Kind → Bool
  | bool | int _ | text => true
  | _ => false

def isElement : Kind → Bool
  | text | object | int _ => true
  | _ => false

end Kind

end TaggedWire
