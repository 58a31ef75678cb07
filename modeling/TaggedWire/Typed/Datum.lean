import TaggedWire.Typed.Shape
import TaggedWire.Value.Basic

namespace TaggedWire

/-- A value of a static type. A collection knows the shapes of its elements even when it has none;
the entries of a map stand in the order in which they are visited. -/
inductive Datum
  | bool (b : Bool)
  | int (n : Integer)
  | float (x : FloatBits)
  | text (s : String)
  | bytes (bs : List UInt8)
  | object (o : Object)
  | boxed (d : Datum)
  | none
  | some (d : Datum)
  | list (elem : Shape) (items : List Datum)
  | orderedMap (key value : Shape) (entries : List (Datum × Datum))
  | hashedMap (key value : Shape) (entries : List (Datum × Datum))
  | record (name : String) (fields : List Datum)

namespace Datum

mutual

def toValue : Datum → Value
  | bool b => .bool b
  | int n => .int n
  | float x => .float x
  | text s => .text s
  | bytes bs => .bytes bs
  | object o => .object o
  | boxed d => d.toValue
  | none => .nil
  | some d => .pointer d.toValue
  | list elem items => .array elem.kind (listToValue items)
  | orderedMap key value entries => .map key.kind value.kind (entriesToValue entries)
  | hashedMap key value entries => .map key.kind value.kind (entriesToValue entries)
  | record _ fields => .object (.plain (listToValue fields))

def listToValue : List Datum → List Value
  | [] => []
  | d :: ds => d.toValue :: listToValue ds

def entriesToValue : List (Datum × Datum) → List (Value × Value)
  | [] => []
  | (k, v) :: rest => (k.toValue, v.toValue) :: entriesToValue rest

end

mutual

/-- The order of keys: false before true, nothing before something, sequences by their first
difference. Shapes without an order do not occur in keys. -/
def compare : Datum → Datum → Ordering
  | bool a, bool b => Ord.compare a b
  | int m, int n => Ord.compare m.val n.val
  | text s, text t => Ord.compare s t
  | bytes a, bytes b => Ord.compare a b
  | boxed d, boxed e => d.compare e
  | none, none => .eq
  | none, some _ => .lt
  | some _, none => .gt
  | some d, some e => d.compare e
  | list _ ds, list _ es => compareAll ds es
  | orderedMap _ _ ds, orderedMap _ _ es => compareEntries ds es
  | record _ ds, record _ es => compareAll ds es
  | _, _ => .eq

def compareAll : List Datum → List Datum → Ordering
  | [], [] => .eq
  | [], _ :: _ => .lt
  | _ :: _, [] => .gt
  | d :: ds, e :: es => (d.compare e).then (compareAll ds es)

def compareEntries : List (Datum × Datum) → List (Datum × Datum) → Ordering
  | [], [] => .eq
  | [], _ :: _ => .lt
  | _ :: _, [] => .gt
  | (j, v) :: ds, (k, w) :: es => ((j.compare k).then (v.compare w)).then (compareEntries ds es)

end

def insertOrdered (key value : Datum) : List (Datum × Datum) → List (Datum × Datum)
  | [] => [(key, value)]
  | (k, v) :: rest =>
    match key.compare k with
    | .lt => (key, value) :: (k, v) :: rest
    | .eq => (k, value) :: rest
    | .gt => (k, v) :: insertOrdered key value rest

/-- Puts an entry at the end, or its value in the place of the one that its key had. -/
def insertHashed (key value : Datum) : List (Datum × Datum) → List (Datum × Datum)
  | [] => [(key, value)]
  | (k, v) :: rest =>
    if key.compare k = .eq then (k, value) :: rest else (k, v) :: insertHashed key value rest

def ordered (key value : Shape) (pairs : List (Datum × Datum)) : Datum :=
  orderedMap key value (pairs.foldl (fun es p ↦ insertOrdered p.1 p.2 es) [])

def hashed (key value : Shape) (pairs : List (Datum × Datum)) : Datum :=
  hashedMap key value (pairs.foldl (fun es p ↦ insertHashed p.1 p.2 es) [])

end Datum

end TaggedWire
