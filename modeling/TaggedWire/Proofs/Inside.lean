import TaggedWire.Value.Subvalues

namespace TaggedWire

theorem sizeOf_lt_of_mem {α : Type} [SizeOf α] {e : α × α} {es : List (α × α)} (h : e ∈ es) :
    sizeOf e.1 < sizeOf es ∧ sizeOf e.2 < sizeOf es := by
  have hlt := List.sizeOf_lt_of_mem h
  cases e
  simp at hlt ⊢
  omega

theorem map_eq_self {α : Type} {f : α → α} {l : List α} (h : ∀ a ∈ l, f a = a) : l.map f = l :=
  (List.map_congr_left h).trans l.map_id

namespace Value

variable {v : Value} {vs : List Value} {es : List (Value × Value)} {P : Value → Prop}

def Everywhere (P : Value → Prop) (v : Value) : Prop := ∀ w ∈ v.subvalues, P w

theorem everywhere_iff : Everywhere P v ↔ P v ∧ ∀ w ∈ v.inside, P w := by
  simp [Everywhere, subvalues]

theorem everywhere_leaf (h : v.inside = []) : Everywhere P v ↔ P v := by
  simp [everywhere_iff, h]

theorem forall_insideAll : (∀ w ∈ insideAll vs, P w) ↔ ∀ v ∈ vs, Everywhere P v := by
  induction vs with
  | nil => exact iff_of_true nofun nofun
  | cons v vs ih =>
    have hparts : insideAll (v :: vs) = v.subvalues ++ insideAll vs := rfl
    rw [hparts, List.forall_mem_append, List.forall_mem_cons, ih]
    rfl

theorem forall_insideEntries :
    (∀ w ∈ insideEntries es, P w) ↔ ∀ e ∈ es, Everywhere P e.1 ∧ Everywhere P e.2 := by
  induction es with
  | nil => exact iff_of_true nofun nofun
  | cons e es ih =>
    have hparts : insideEntries (e :: es) =
        e.1.subvalues ++ e.2.subvalues ++ insideEntries es := rfl
    rw [hparts, List.forall_mem_append, List.forall_mem_append, List.forall_mem_cons, ih]
    rfl

@[simp] theorem everywhere_pointer : Everywhere P (pointer v) ↔ P (pointer v) ∧ Everywhere P v :=
  everywhere_iff

@[simp] theorem everywhere_plain :
    Everywhere P (object (.plain vs)) ↔ P (object (.plain vs)) ∧ ∀ v ∈ vs, Everywhere P v :=
  everywhere_iff.trans (and_congr_right' forall_insideAll)

@[simp] theorem everywhere_custom {id : Nat} {program : List Step} :
    Everywhere P (object (.custom id program vs)) ↔
      P (object (.custom id program vs)) ∧ ∀ v ∈ vs, Everywhere P v :=
  everywhere_iff.trans (and_congr_right' forall_insideAll)

@[simp] theorem everywhere_array {k : Kind} :
    Everywhere P (array k vs) ↔ P (array k vs) ∧ ∀ v ∈ vs, Everywhere P v :=
  everywhere_iff.trans (and_congr_right' forall_insideAll)

@[simp] theorem everywhere_map {j k : Kind} :
    Everywhere P (map j k es) ↔
      P (map j k es) ∧ ∀ e ∈ es, Everywhere P e.1 ∧ Everywhere P e.2 :=
  everywhere_iff.trans (and_congr_right' forall_insideEntries)

theorem Everywhere.pointer (h : Everywhere P (pointer v)) : Everywhere P v :=
  (everywhere_pointer.mp h).2

theorem Everywhere.plain (h : Everywhere P (object (.plain vs))) : ∀ v ∈ vs, Everywhere P v :=
  (everywhere_plain.mp h).2

theorem Everywhere.array {k : Kind} (h : Everywhere P (array k vs)) : ∀ v ∈ vs, Everywhere P v :=
  (everywhere_array.mp h).2

theorem Everywhere.map {j k : Kind} (h : Everywhere P (map j k es)) :
    ∀ e ∈ es, Everywhere P e.1 ∧ Everywhere P e.2 :=
  (everywhere_map.mp h).2

theorem customFree_iff :
    v.CustomFree ↔ Everywhere (fun w ↦ w.object?.any Object.isCustom = false) v := by
  constructor
  · intro h w hw
    cases w with
    | object o => exact h o hw
    | _ => rfl
  · intro h o ho
    exact h (object o) ho

instance : Decidable v.CustomFree :=
  decidable_of_iff (∀ w ∈ v.subvalues, w.object?.any Object.isCustom = false) customFree_iff.symm

theorem customFree_pointer : (pointer v).CustomFree ↔ v.CustomFree := by
  rw [customFree_iff, customFree_iff, everywhere_pointer]
  exact and_iff_right rfl

theorem customFree_plain : (object (.plain vs)).CustomFree ↔ ∀ v ∈ vs, v.CustomFree := by
  simp only [customFree_iff, everywhere_plain]
  exact and_iff_right rfl

theorem customFree_array {k : Kind} : (array k vs).CustomFree ↔ ∀ v ∈ vs, v.CustomFree := by
  simp only [customFree_iff, everywhere_array]
  exact and_iff_right rfl

theorem customFree_map {j k : Kind} :
    (map j k es).CustomFree ↔ ∀ e ∈ es, e.1.CustomFree ∧ e.2.CustomFree := by
  simp only [customFree_iff, everywhere_map]
  exact and_iff_right rfl

theorem CustomFree.pointer (h : (pointer v).CustomFree) : v.CustomFree := customFree_pointer.mp h

theorem CustomFree.plain (h : (object (.plain vs)).CustomFree) : ∀ v ∈ vs, v.CustomFree :=
  customFree_plain.mp h

theorem CustomFree.array {k : Kind} (h : (array k vs).CustomFree) : ∀ v ∈ vs, v.CustomFree :=
  customFree_array.mp h

theorem CustomFree.map {j k : Kind} (h : (map j k es).CustomFree) :
    ∀ e ∈ es, e.1.CustomFree ∧ e.2.CustomFree :=
  customFree_map.mp h

theorem not_customFree_custom {id : Nat} {program : List Step} :
    ¬ (object (.custom id program vs)).CustomFree := by
  intro h
  have hself := h (.custom id program vs) List.mem_cons_self
  cases hself

/-- What passes from the parts of a value to the value holds of all values. The program of a custom
object is no part of it. -/
@[elab_as_elim]
theorem by_parts {motive : Value → Prop} (bool : ∀ b, motive (.bool b)) (int : ∀ n, motive (.int n))
    (float : ∀ x, motive (.float x)) (text : ∀ s, motive (.text s))
    (bytes : ∀ bs, motive (.bytes bs)) (nil : motive .nil)
    (pointer : ∀ v, motive v → motive (.pointer v))
    (plain : ∀ vs, (∀ v ∈ vs, motive v) → motive (.object (.plain vs)))
    (custom : ∀ i p vs, (∀ v ∈ vs, motive v) → motive (.object (.custom i p vs)))
    (array : ∀ k vs, (∀ v ∈ vs, motive v) → motive (.array k vs))
    (map : ∀ j k es, (∀ e ∈ es, motive e.1 ∧ motive e.2) → motive (.map j k es))
    (v : Value) : motive v := by
  induction hn : sizeOf v using Nat.strongRecOn generalizing v with
  | _ n ih =>
    have part (w : Value) (hw : sizeOf w < n) : motive w := ih _ hw w rfl
    subst hn
    match v with
    | .bool b => exact bool b
    | .int n => exact int n
    | .float x => exact float x
    | .text s => exact text s
    | .bytes bs => exact bytes bs
    | .nil => exact nil
    | .pointer v => exact pointer v (part v (by simp))
    | .object (.plain vs) =>
      refine plain vs fun v hv ↦ part v ?_
      have hlt := List.sizeOf_lt_of_mem hv
      simp
      omega
    | .object (.custom i p vs) =>
      refine custom i p vs fun v hv ↦ part v ?_
      have hlt := List.sizeOf_lt_of_mem hv
      simp
      omega
    | .array k vs =>
      refine array k vs fun v hv ↦ part v ?_
      have hlt := List.sizeOf_lt_of_mem hv
      simp
      omega
    | .map j k es =>
      refine map j k es fun e he ↦ ⟨part e.1 ?_, part e.2 ?_⟩
      all_goals
        have hlt := sizeOf_lt_of_mem he
        simp
        omega

@[elab_as_elim]
theorem CustomFree.induct {motive : (v : Value) → v.CustomFree → Prop}
    (bool : ∀ b h, motive (.bool b) h) (int : ∀ n h, motive (.int n) h)
    (float : ∀ x h, motive (.float x) h) (text : ∀ s h, motive (.text s) h)
    (bytes : ∀ bs h, motive (.bytes bs) h) (nil : ∀ h, motive .nil h)
    (pointer : ∀ v h, (∀ h, motive v h) → motive (.pointer v) h)
    (object : ∀ vs h, (∀ v ∈ vs, ∀ h, motive v h) → motive (.object (.plain vs)) h)
    (array : ∀ k vs h, (∀ v ∈ vs, ∀ h, motive v h) → motive (.array k vs) h)
    (map : ∀ j k es h, (∀ e ∈ es, (∀ h, motive e.1 h) ∧ ∀ h, motive e.2 h) →
      motive (.map j k es) h)
    (v : Value) (h : v.CustomFree) : motive v h := by
  induction v using by_parts with
  | bool b => exact bool b h
  | int n => exact int n h
  | float x => exact float x h
  | text s => exact text s h
  | bytes bs => exact bytes bs h
  | nil => exact nil h
  | pointer v ih => exact pointer v h ih
  | plain vs ih => exact object vs h ih
  | custom => exact absurd h not_customFree_custom
  | array k vs ih => exact array k vs h ih
  | map j k es ih => exact map j k es h ih

theorem CustomFree.everywhere (h : v.CustomFree) : Everywhere CustomFree v := by
  induction v, h using CustomFree.induct with
  | bool b h | int n h | float x h | text s h | bytes bs h | nil h =>
    exact (everywhere_leaf rfl).mpr h
  | pointer v h ih => exact everywhere_pointer.mpr ⟨h, ih h.pointer⟩
  | object vs h ih => exact everywhere_plain.mpr ⟨h, fun v hv ↦ ih v hv (h.plain v hv)⟩
  | array k vs h ih => exact everywhere_array.mpr ⟨h, fun v hv ↦ ih v hv (h.array v hv)⟩
  | map j k es h ih =>
    exact everywhere_map.mpr
      ⟨h, fun e he ↦ ⟨(ih e he).1 (h.map e he).1, (ih e he).2 (h.map e he).2⟩⟩

end Value

end TaggedWire
