import TaggedWire.Proofs.Arrangement

namespace TaggedWire

open Layout

namespace Piece

variable {x : List UInt8}

theorem count_eq_ok {n : Nat} : count n = .ok x ↔ n < capacity 4 ∧ Base128.ofNat n = x := by
  unfold count
  split <;> simp [*]

theorem object_eq_ok {p : List UInt8} :
    object p = .ok x ↔ Frame.size p < capacity Frame.headerSize ∧ Frame.around p = x := by
  unfold object
  split <;> simp [*]

end Piece

theorem Layout.within_eq_ok {o : Options} {depth : Nat} {l : Layout} {x : List UInt8} :
    within o depth l = .ok x ↔ depth < o.maxDepth ∧ l = .ok x := by
  unfold within
  split <;> simp [*]

theorem Layout.bytes_cons_eq_ok {c : UInt8} {cs x : List UInt8} :
    bytes .tagged (c :: cs) = .ok x ↔
      (c :: cs).length < capacity 4 ∧
        Tag.u8.asArray :: Base128.ofNat (c :: cs).length ++ (c :: cs).flatMap Piece.byte = x := by
  simp only [bytes, List.isEmpty_cons, Bool.false_eq_true, ↓reduceIte, bind_eq_ok, pure_eq_ok,
    Piece.count_eq_ok]
  grind [Piece.integerArrayTag, Tag.ofInt]

@[simp] theorem Layout.concat_nil : concat [] = .ok [] := rfl

@[simp] theorem Layout.concat_cons (p : Layout) (ps : List Layout) :
    concat (p :: ps) = do return (← p) ++ (← concat ps) := rfl

namespace Layout

variable {α : Type} {f : α → Layout} {as : List α} {x : List UInt8}

theorem exists_ok_of_concat (h : concat (as.map f) = .ok x) : ∀ a ∈ as, ∃ y, f a = .ok y := by
  induction as generalizing x with
  | nil => exact fun a ha ↦ absurd ha List.not_mem_nil
  | cons a as ih =>
    simp only [List.map_cons, concat_cons, bind_eq_ok, pure_eq_ok] at h
    obtain ⟨y, hy, z, hz, -⟩ := h
    exact List.forall_mem_cons.mpr ⟨⟨y, hy⟩, ih hz⟩

theorem concat_eq_flatMap {g : α → List UInt8} (h : ∀ a ∈ as, f a = .ok (g a)) :
    concat (as.map f) = .ok (as.flatMap g) := by
  induction as with
  | nil => rfl
  | cons a as ih =>
    rw [List.map_cons, concat_cons, h a List.mem_cons_self,
      ih fun b hb ↦ h b (List.mem_cons_of_mem a hb)]
    rfl

end Layout

namespace Value

variable (o : Options) (depth : Nat)

theorem fieldBodies_eq (vs : List Value) :
    fieldBodies o depth vs = vs.map fun v ↦ v.layout o depth := by
  induction vs with
  | nil => rfl
  | cons v vs ih => rw [fieldBodies, ih]; rfl

theorem itemBodies_eq (k : Kind) (vs : List Value) :
    itemBodies o depth k vs = vs.map (fun v ↦ do k.check v.kind; v.layout o depth) := by
  induction vs with
  | nil => rfl
  | cons v vs ih => rw [itemBodies, ih]; rfl

def entryLayout (e : Value × Value) : Layout :=
  within o depth do
    let key ← e.1.layout o (depth + 1)
    let value ← e.2.layout o (depth + 1)
    Piece.object (key ++ value)

theorem entryBodies_eq (es : List (Value × Value)) :
    entryBodies o depth es = es.map fun e ↦ ⟨e.1, e.1.layout o depth, entryLayout o depth e⟩ := by
  induction es with
  | nil => rfl
  | cons e es ih => rw [entryBodies, ih]; rfl

theorem body_plain (vs : List Value) :
    (object (.plain vs)).body o depth =
      (do Piece.object (← concat (vs.map fun v ↦ v.layout o depth))) := by
  rw [body, fieldBodies_eq]

theorem body_array_cons (k : Kind) (v : Value) (vs : List Value) :
    (array k (v :: vs)).body o depth = (do
      let tag ← Piece.arrayTag o.integerArrays k
      let count ← Piece.count (v :: vs).length
      return tag ++ count ++ (← concat (itemBodies o depth k (v :: vs)))) := by
  rw [body]
  rfl

theorem body_map_cons (j k : Kind) (e : Value × Value) (es : List (Value × Value)) :
    (map j k (e :: es)).body o depth = (do
      j.checkEntries k (e :: es)
      let arranged ← order o.sortedMaps j Prod.fst (fun e ↦ e.1.layout o depth) (e :: es)
      let count ← Piece.count (e :: es).length
      return Tag.object.asArray :: count ++ (← concat (arranged.map (entryLayout o depth)))) := by
  rw [body, entryBodies_eq, order_map]
  simp [Function.comp_def]

section Success

variable {o} {depth} {x : List UInt8}

theorem layout_eq_ok {v : Value} :
    v.layout o depth = .ok x ↔ depth < o.maxDepth ∧ v.body o (depth + 1) = .ok x :=
  within_eq_ok

theorem body_pointer_eq_ok {v : Value} :
    (pointer v).body o depth = .ok x ↔ ∃ y, v.layout o depth = .ok y ∧ Tag.pointer :: y = x := by
  simp only [body, bind_eq_ok, pure_eq_ok]
  rfl

theorem body_plain_eq_ok {vs : List Value} :
    (object (.plain vs)).body o depth = .ok x ↔
      ∃ p, concat (vs.map fun v ↦ v.layout o depth) = .ok p ∧
        Frame.size p < capacity Frame.headerSize ∧ Frame.around p = x := by
  simp only [body_plain, bind_eq_ok, Piece.object_eq_ok]

theorem check_eq_ok {j k : Kind} {u : Unit} : j.check k = .ok u ↔ k = j := by
  unfold Kind.check
  split <;> simp [*]

theorem checkEntries_eq_ok {j k : Kind} {es : List (Value × Value)} {u : Unit} :
    j.checkEntries k es = .ok u ↔ ∀ e ∈ es, e.1.kind = j ∧ e.2.kind = k := by
  induction es with
  | nil => simp [Kind.checkEntries]
  | cons e es ih =>
    obtain ⟨a, b⟩ := e
    simp [Kind.checkEntries, check_eq_ok, ih, and_assoc]

theorem concat_itemBodies_eq_ok {k : Kind} {vs : List Value} :
    concat (itemBodies o depth k vs) = .ok x ↔
      (∀ v ∈ vs, v.kind = k) ∧ concat (vs.map fun v ↦ v.layout o depth) = .ok x := by
  rw [itemBodies_eq]
  induction vs generalizing x with
  | nil => simp
  | cons v vs ih =>
    simp only [List.map_cons, concat_cons, bind_eq_ok, pure_eq_ok, check_eq_ok, ih,
      List.forall_mem_cons]
    grind

theorem body_array_cons_eq_ok {k : Kind} {v : Value} {vs : List Value} :
    (array k (v :: vs)).body o depth = .ok x ↔
      ∃ tag rest, Piece.arrayTag o.integerArrays k = .ok tag ∧ (v :: vs).length < capacity 4 ∧
        (∀ w ∈ v :: vs, w.kind = k) ∧
        concat ((v :: vs).map fun v ↦ v.layout o depth) = .ok rest ∧
        tag ++ Base128.ofNat (v :: vs).length ++ rest = x := by
  simp only [body_array_cons, bind_eq_ok, pure_eq_ok, Piece.count_eq_ok, concat_itemBodies_eq_ok]
  grind

theorem entryLayout_eq_ok {e : Value × Value} :
    entryLayout o depth e = .ok x ↔
      depth < o.maxDepth ∧ ∃ y z, e.1.layout o (depth + 1) = .ok y ∧
        e.2.layout o (depth + 1) = .ok z ∧ Frame.size (y ++ z) < capacity Frame.headerSize ∧
        Frame.around (y ++ z) = x := by
  simp only [entryLayout, within_eq_ok, bind_eq_ok, Piece.object_eq_ok]
  grind

theorem body_map_cons_eq_ok {j k : Kind} {e : Value × Value} {es : List (Value × Value)} :
    (map j k (e :: es)).body o depth = .ok x ↔
      (∀ a ∈ e :: es, a.1.kind = j ∧ a.2.kind = k) ∧ (e :: es).length < capacity 4 ∧
      ∃ arranged rest,
        order o.sortedMaps j Prod.fst (fun e ↦ e.1.layout o depth) (e :: es) = .ok arranged ∧
        concat (arranged.map (entryLayout o depth)) = .ok rest ∧
        Tag.object.asArray :: Base128.ofNat (e :: es).length ++ rest = x := by
  simp only [body_map_cons, bind_eq_ok, pure_eq_ok, checkEntries_eq_ok, Piece.count_eq_ok]
  grind

end Success

end Value

end TaggedWire
