import TaggedWire.Number
import TaggedWire.Fault

namespace TaggedWire

mutual

inductive Value
  | bool (b : Bool)
  | int (n : Integer)
  | float (x : FloatBits)
  | text (s : String)
  | bytes (bs : List UInt8)
  | nil
  | pointer (target : Value)
  | object (o : Object)
  | array (elem : Kind) (items : List Value)
  | map (key value : Kind) (entries : List (Value × Value))

/-- A record: fields in order, or a program that writes the wire form itself. The program's
identity is `id`. -/
inductive Object
  | plain (fields : List Value)
  | custom (id : Nat) (program : List Step) (fields : List Value)

inductive Step
  | tag (t : UInt8)
  | raw (bs : List UInt8)
  | unsigned (width n : Nat)
  | signed (width : Nat) (v : Int)
  | value (v : Value)
  | record (o : Object)
  | object (body : List Step)
  | describe
  | attempt (body : List Step)
  | fail (f : Fault)

end

namespace Object

def fields : Object → List Value
  | plain fs | custom _ _ fs => fs

def isCustom : Object → Bool
  | plain _ => false
  | custom .. => true

def push : Object → Value → Object
  | plain fs, v => plain (fs ++ [v])
  | custom i p fs, v => custom i p (fs ++ [v])

end Object

namespace Value

def kind : Value → Kind
  | bool _ => .bool
  | int n => .int n.kind
  | float x => .float x.kind
  | text _ => .text
  | bytes _ | array .. => .array
  | nil | pointer _ => .pointer
  | object _ => .object
  | map .. => .map

/-- An object is never zero, whatever its fields hold. -/
def isZero : Value → Bool
  | bool b => !b
  | int n => n.val == 0
  | float x => x.isZero
  | text s => s.isEmpty
  | bytes bs => bs.isEmpty
  | nil => true
  | pointer _ | object _ => false
  | array _ items => items.isEmpty
  | map _ _ entries => entries.isEmpty

def text? : Value → Option String
  | text s => some s
  | _ => none

def object? : Value → Option Object
  | object o => some o
  | _ => none

theorem exists_eq_object {v : Value} (h : v.kind = .object) : ∃ o, v = object o := by
  cases v with
  | object o => exact ⟨o, rfl⟩
  | _ => cases h

end Value

end TaggedWire
