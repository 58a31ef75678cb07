import TaggedWire.Typed.Datum

namespace TaggedWire

inductive Shape.Occurs (S : Schema) (s : Shape) : Shape → Prop
  | here : Occurs S s s
  | boxed {t} : Occurs S s t → Occurs S s (.boxed t)
  | option {t} : Occurs S s t → Occurs S s (.option t)
  | list {t} : Occurs S s t → Occurs S s (.list t)
  | orderedKey {k v} : Occurs S s k → Occurs S s (.orderedMap k v)
  | orderedValue {k v} : Occurs S s v → Occurs S s (.orderedMap k v)
  | hashedKey {k v} : Occurs S s k → Occurs S s (.hashedMap k v)
  | hashedValue {k v} : Occurs S s v → Occurs S s (.hashedMap k v)
  | field {name t} : t ∈ S name → Occurs S s t → Occurs S s (.record name)

/-- Shapes that can be keys: they have an order and no hidden one. -/
def Shape.IsKey (S : Schema) (s : Shape) : Prop :=
  ∀ t, Occurs S t s → match t with
    | .float _ | .object | .hashedMap .. => False
    | _ => True

namespace Datum

mutual

/-- `d` is a value of the shape, whose records have the fields that `S` gives them. -/
def HasShape (S : Schema) : Datum → Shape → Prop
  | bool _, .bool => True
  | int n, .int k => n.kind = k
  | float x, .float k => x.kind = k
  | text _, .text => True
  | bytes _, .bytes => True
  | object _, .object => True
  | boxed d, .boxed s => d.HasShape S s
  | none, .option _ => True
  | some d, .option s => d.HasShape S s
  | list elem items, .list s => elem = s ∧ AllHaveShape S s items
  | orderedMap key value entries, .orderedMap k v =>
    key = k ∧ value = v ∧ (entries ≠ [] → k.IsKey S) ∧ EntriesHaveShape S k v entries ∧
      entries.Pairwise fun a b ↦ a.1.compare b.1 = .lt
  | hashedMap key value entries, .hashedMap k v =>
    key = k ∧ value = v ∧ (entries ≠ [] → k.IsKey S) ∧ EntriesHaveShape S k v entries ∧
      entries.Pairwise fun a b ↦ a.1.compare b.1 ≠ .eq
  | record name fields, .record n => name = n ∧ FieldsHaveShape S fields (S n)
  | _, _ => False

def AllHaveShape (S : Schema) (s : Shape) : List Datum → Prop
  | [] => True
  | d :: ds => d.HasShape S s ∧ AllHaveShape S s ds

def EntriesHaveShape (S : Schema) (k v : Shape) : List (Datum × Datum) → Prop
  | [] => True
  | (a, b) :: rest => a.HasShape S k ∧ b.HasShape S v ∧ EntriesHaveShape S k v rest

def FieldsHaveShape (S : Schema) : List Datum → List Shape → Prop
  | [], [] => True
  | d :: ds, s :: ss => d.HasShape S s ∧ FieldsHaveShape S ds ss
  | _, _ => False

end

/-- As `HasShape`, with nothing asked of the keys of maps. -/
inductive OfShape (S : Schema) : Datum → Shape → Prop
  | bool {b} : OfShape S (bool b) .bool
  | int {n} : OfShape S (int n) (.int n.kind)
  | float {x} : OfShape S (float x) (.float x.kind)
  | text {s} : OfShape S (text s) .text
  | bytes {bs} : OfShape S (bytes bs) .bytes
  | object {o} : OfShape S (object o) .object
  | boxed {d s} : OfShape S d s → OfShape S (boxed d) (.boxed s)
  | none {s} : OfShape S none (.option s)
  | some {d s} : OfShape S d s → OfShape S (some d) (.option s)
  | list {ds s} : (∀ d ∈ ds, OfShape S d s) → OfShape S (list s ds) (.list s)
  | orderedMap {es k v} : (∀ e ∈ es, OfShape S e.1 k) → (∀ e ∈ es, OfShape S e.2 v) →
      OfShape S (orderedMap k v es) (.orderedMap k v)
  | hashedMap {es k v} : (∀ e ∈ es, OfShape S e.1 k) → (∀ e ∈ es, OfShape S e.2 v) →
      OfShape S (hashedMap k v es) (.hashedMap k v)
  | record {n ds} : ds.length = (S n).length → (∀ p ∈ ds.zip (S n), OfShape S p.1 p.2) →
      OfShape S (record n ds) (.record n)

mutual

/-- Every map in the datum is an ordered one whose keys are booleans, numbers or texts. -/
def NaturallyOrdered : Datum → Prop
  | boxed d => d.NaturallyOrdered
  | some d => d.NaturallyOrdered
  | list _ items => AllNaturallyOrdered items
  | orderedMap key _ entries => key.kind.hasNaturalOrder ∧ EntriesNaturallyOrdered entries
  | hashedMap .. => False
  | record _ fields => AllNaturallyOrdered fields
  | _ => True

def AllNaturallyOrdered : List Datum → Prop
  | [] => True
  | d :: ds => d.NaturallyOrdered ∧ AllNaturallyOrdered ds

def EntriesNaturallyOrdered : List (Datum × Datum) → Prop
  | [] => True
  | (k, v) :: rest => k.NaturallyOrdered ∧ v.NaturallyOrdered ∧ EntriesNaturallyOrdered rest

end

mutual

/-- The datum whose hashed maps, at every depth, are visited in the order of their keys. Two data
that differ in nothing but those orders settle alike. -/
def settle : Datum → Datum
  | boxed d => boxed d.settle
  | some d => some d.settle
  | list elem items => list elem (settleAll items)
  | orderedMap k v entries => orderedMap k v (settleEntries entries)
  | hashedMap k v entries =>
    hashedMap k v ((settleEntries entries).mergeSort fun a b ↦ a.1.compare b.1 ≠ .gt)
  | record name fields => record name (settleAll fields)
  | d => d

def settleAll : List Datum → List Datum
  | [] => []
  | d :: ds => d.settle :: settleAll ds

def settleEntries : List (Datum × Datum) → List (Datum × Datum)
  | [] => []
  | (k, v) :: rest => (k.settle, v.settle) :: settleEntries rest

end

end Datum

end TaggedWire
