import Mathlib.Algebra.GroupWithZero.Nat
import TaggedWire.Proofs.Inside
import TaggedWire.Proofs.Parts

namespace TaggedWire

def tagLength (arrays : IntegerArrays) (k : Kind) : Nat :=
  if k.isInteger ∧ arrays = .untagged then 0 else 1

namespace Value

mutual

def wireLength (arrays : IntegerArrays) : Value → Nat
  | bool _ | nil => 1
  | int n => (Piece.integer n).length
  | float _ => 0
  | text s =>
    if s.isEmpty then 1
    else
      let units := Utf16.encode s.toList
      1 + (Base128.ofNat units.length).length + (Utf16.bytes units).length
  | bytes bs =>
    if bs.isEmpty then 1
    else
      tagLength arrays (.int .u8) + (Base128.ofNat bs.length).length +
        (bs.flatMap Piece.byte).length
  | pointer v => 1 + v.wireLength arrays
  | object (.plain fields) =>
    1 + Frame.headerSize + Frame.markerCount + wireLengthAll arrays fields
  | object (.custom ..) => 0
  | array k items =>
    if items.isEmpty then 1
    else
      tagLength arrays k + (Base128.ofNat items.length).length + wireLengthAll arrays items
  | map _ _ entries =>
    if entries.isEmpty then 1
    else 1 + (Base128.ofNat entries.length).length + wireLengthEntries arrays entries

def wireLengthAll (arrays : IntegerArrays) : List Value → Nat
  | [] => 0
  | v :: vs => v.wireLength arrays + wireLengthAll arrays vs

def wireLengthEntries (arrays : IntegerArrays) : List (Value × Value) → Nat
  | [] => 0
  | (k, v) :: rest =>
    1 + Frame.headerSize + Frame.markerCount + (k.wireLength arrays + v.wireLength arrays) +
      wireLengthEntries arrays rest

end

variable {arrays : IntegerArrays} {v : Value} {vs : List Value} {es : List (Value × Value)}

def entryLength (arrays : IntegerArrays) (e : Value × Value) : Nat :=
  1 + Frame.headerSize + Frame.markerCount + (e.1.wireLength arrays + e.2.wireLength arrays)

theorem wireLengthAll_eq : wireLengthAll arrays vs = (vs.map (wireLength arrays)).sum := by
  induction vs with
  | nil => rfl
  | cons v vs ih => rw [wireLengthAll, ih, List.map_cons, List.sum_cons]

theorem wireLengthEntries_eq :
    wireLengthEntries arrays es = (es.map (entryLength arrays)).sum := by
  induction es with
  | nil => rfl
  | cons e es ih =>
    rw [wireLengthEntries, ih, List.map_cons, List.sum_cons]
    rfl

/-- The counts and the sizes that stand in the header of a value have room there. -/
def HeadersFit (arrays : IntegerArrays) : Value → Prop
  | text s => (Utf16.encode s.toList).length < capacity 4
  | bytes bs => bs.length < capacity 4
  | object (.plain fields) =>
    wireLengthAll arrays fields + Frame.headerSize + Frame.markerCount < capacity Frame.headerSize
  | array _ items => items.length < capacity 4
  | map _ _ entries =>
    entries.length < capacity 4 ∧ ∀ e ∈ entries,
      e.1.wireLength arrays + e.2.wireLength arrays + Frame.headerSize + Frame.markerCount <
        capacity Frame.headerSize
  | _ => True

instance : (v : Value) → Decidable (v.HeadersFit arrays)
  | text _ | bytes _ | object (.plain _) | array _ _ => inferInstanceAs (Decidable (_ < _))
  | map _ _ entries => inferInstanceAs (Decidable (_ ∧ ∀ e ∈ entries, _ < _))
  | bool _ | int _ | float _ | nil | pointer _ | object (.custom ..) =>
    inferInstanceAs (Decidable True)

def Fits (arrays : IntegerArrays) (v : Value) : Prop := Everywhere (HeadersFit arrays) v

instance : Decidable (v.Fits arrays) :=
  inferInstanceAs (Decidable (∀ w ∈ v.subvalues, w.HeadersFit arrays))

theorem add_heightAll_le {c m : Nat} :
    c + heightAll vs ≤ m ↔ c ≤ m ∧ ∀ v ∈ vs, c + v.height ≤ m := by
  induction vs with
  | nil => simp [heightAll]
  | cons v vs ih =>
    have hmax : c + heightAll (v :: vs) ≤ m ↔ c + v.height ≤ m ∧ c + heightAll vs ≤ m := by
      rw [heightAll]
      omega
    rw [hmax, ih, List.forall_mem_cons]
    constructor
    · intro hbounds
      obtain ⟨hv, hc, hvs⟩ := hbounds
      exact ⟨hc, hv, hvs⟩
    · intro hbounds
      obtain ⟨hc, hv, hvs⟩ := hbounds
      exact ⟨hv, hc, hvs⟩

theorem add_heightEntries_le {c m : Nat} :
    c + heightEntries es ≤ m ↔
      c ≤ m ∧ ∀ e ∈ es, c + 1 + e.1.height ≤ m ∧ c + 1 + e.2.height ≤ m := by
  induction es with
  | nil => simp [heightEntries]
  | cons e es ih =>
    obtain ⟨k, v⟩ := e
    have hmax : c + heightEntries ((k, v) :: es) ≤ m ↔
        (c + 1 + k.height ≤ m ∧ c + 1 + v.height ≤ m) ∧ c + heightEntries es ≤ m := by
      rw [heightEntries]
      omega
    rw [hmax, ih, List.forall_mem_cons]
    constructor
    · intro hbounds
      obtain ⟨he, hc, hes⟩ := hbounds
      exact ⟨hc, he, hes⟩
    · intro hbounds
      obtain ⟨hc, he, hes⟩ := hbounds
      exact ⟨he, hc, hes⟩

end Value

end TaggedWire
