import TaggedWire.Value.Basic

namespace TaggedWire

namespace Value

mutual

/-- The values inside a value, each before those inside it. A program counts as holding none. -/
def inside : Value → List Value
  | pointer v => v :: v.inside
  | object (.plain fields) => insideAll fields
  | object (.custom _ _ fields) => insideAll fields
  | array _ items => insideAll items
  | map _ _ entries => insideEntries entries
  | _ => []

def insideAll : List Value → List Value
  | [] => []
  | v :: vs => v :: v.inside ++ insideAll vs

def insideEntries : List (Value × Value) → List Value
  | [] => []
  | (k, v) :: rest => k :: k.inside ++ v :: v.inside ++ insideEntries rest

end

def subvalues (v : Value) : List Value := v :: v.inside

def CustomFree (v : Value) : Prop :=
  ∀ o, object o ∈ v.subvalues → o.isCustom = false

def NaNFree (v : Value) : Prop :=
  ∀ x, float x ∈ v.subvalues → x.isNaN = false

/-- What a value must be, apart from the values inside it, to have a wire form. -/
def WellKinded : Value → Prop
  | float _ => False
  | array k items => k.isElement ∧ ∀ v ∈ items, v.kind = k
  | map k v entries => ∀ e ∈ entries, e.1.kind = k ∧ e.2.kind = v
  | _ => True

def WellFormed (v : Value) : Prop := ∀ w ∈ v.subvalues, w.WellKinded

def isCountedIntegers : Value → Bool
  | bytes bs => !bs.isEmpty
  | array k items => k.isInteger && !items.isEmpty
  | _ => false

mutual

/-- How many values stand one inside the other when the value is written. -/
def height : Value → Nat
  | pointer v => v.height + 1
  | object (.plain fields) => heightAll fields + 1
  | object (.custom _ _ fields) => heightAll fields + 1
  | array _ items => heightAll items + 1
  | map _ _ entries => heightEntries entries + 1
  | _ => 1

def heightAll : List Value → Nat
  | [] => 0
  | v :: vs => max v.height (heightAll vs)

def heightEntries : List (Value × Value) → Nat
  | [] => 0
  | (k, v) :: rest => max (max k.height v.height + 1) (heightEntries rest)

end

end Value

end TaggedWire
