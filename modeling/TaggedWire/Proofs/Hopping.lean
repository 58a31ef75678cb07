import Mathlib.Logic.Function.Iterate
import TaggedWire.Proofs.Refinement

namespace TaggedWire

open Layout

namespace Frame

def IsFrame (x : List UInt8) : Prop := ∃ p, size p < capacity headerSize ∧ around p = x

variable {α : Type} {f : α → List UInt8} {as : List α}

theorem hop_iterate (h : ∀ a ∈ as, IsFrame (f a)) {i : Nat} (hi : i ≤ as.length)
    (rest : List UInt8) : hop^[i] (as.flatMap f ++ rest) = (as.drop i).flatMap f ++ rest := by
  -- The first hop is the one that is peeled off, so the row is what shrinks.
  induction i generalizing as with
  | zero => rfl
  | succ i ih =>
    cases as with
    | nil => cases hi
    | cons a as =>
      obtain ⟨⟨p, hp, hframe⟩, hframes⟩ := List.forall_mem_cons.mp h
      rw [Function.iterate_succ_apply, List.flatMap_cons, List.append_assoc, ← hframe,
        hop_around hp, List.drop_succ_cons]
      exact ih hframes (Nat.le_of_succ_le_succ hi)

/-- So many hops from the start of the bytes land where the bytes end, whatever follows, and each
of them starts on the tag of an object before that end. -/
def HopsOver (n : Nat) (bytes : List UInt8) : Prop :=
  ∀ rest, hop^[n] (bytes ++ rest) = rest ∧
    ∀ i < n, ∃ tail, hop^[i] (bytes ++ rest) = Tag.object :: tail ++ rest

theorem hopsOver_flatMap (h : ∀ a ∈ as, IsFrame (f a)) : HopsOver as.length (as.flatMap f) := by
  intro rest
  constructor
  · rw [hop_iterate h (Nat.le_refl _), List.drop_length]
    rfl
  · intro i hi
    obtain ⟨p, -, hp⟩ := h as[i] (List.getElem_mem hi)
    rw [hop_iterate h (Nat.le_of_lt hi), List.drop_eq_getElem_cons hi, List.flatMap_cons, ← hp]
    exact ⟨_, rfl⟩

end Frame

theorem Layout.hopsOver_of_concat {α : Type} {f : α → Layout} {as : List α} {x : List UInt8}
    (hx : concat (as.map f) = .ok x) (h : ∀ a ∈ as, ∀ y, f a = .ok y → Frame.IsFrame y) :
    Frame.HopsOver as.length x := by
  have hparts : ∀ a ∈ as, f a = .ok ((f a).toOption.getD []) := by
    intro a ha
    obtain ⟨y, hy⟩ := exists_ok_of_concat hx a ha
    rw [hy]
    rfl
  rw [concat_eq_flatMap hparts] at hx
  cases hx
  exact Frame.hopsOver_flatMap fun a ha ↦ h a ha _ (hparts a ha)

namespace Value

variable {o : Options} {d : Nat} {x : List UInt8}

theorem object_isFrame {u : Object} (h : (object u).CustomFree)
    (hx : (object u).layout o d = .ok x) : Frame.IsFrame x := by
  cases u with
  | plain vs =>
    obtain ⟨p, -, hsize, hp⟩ := body_plain_eq_ok.mp (layout_eq_ok.mp hx).2
    exact ⟨p, hsize, hp⟩
  | custom => exact absurd h not_customFree_custom

theorem entry_isFrame {e : Value × Value} (hx : entryLayout o d e = .ok x) : Frame.IsFrame x := by
  obtain ⟨-, y, z, -, -, hsize, hframe⟩ := entryLayout_eq_ok.mp hx
  exact ⟨y ++ z, hsize, hframe⟩

def HopsThrough (n : Nat) (x : List UInt8) : Prop :=
  ∃ row, x = Tag.object.asArray :: Base128.ofNat n ++ row ∧ Frame.HopsOver n row

theorem array_hops {vs : List Value} (h : (array .object vs).CustomFree) (hvs : vs ≠ [])
    (hx : (array .object vs).body o d = .ok x) : HopsThrough vs.length x := by
  obtain ⟨v, vs, rfl⟩ := List.exists_cons_of_ne_nil hvs
  obtain ⟨_, row, ⟨⟩, -, hkinds, hrow, rfl⟩ := body_array_cons_eq_ok.mp hx
  refine ⟨row, rfl, hopsOver_of_concat hrow fun w hw y hy ↦ ?_⟩
  obtain ⟨u, rfl⟩ := exists_eq_object (hkinds w hw)
  exact object_isFrame (h.array _ hw) hy

theorem map_hops {j k : Kind} {es : List (Value × Value)} (hes : es ≠ [])
    (hx : (map j k es).body o d = .ok x) : HopsThrough es.length x := by
  obtain ⟨e, es, rfl⟩ := List.exists_cons_of_ne_nil hes
  obtain ⟨-, -, arranged, row, horder, hrow, rfl⟩ := body_map_cons_eq_ok.mp hx
  rw [← (order_perm horder).length_eq]
  exact ⟨row, rfl, hopsOver_of_concat hrow fun a _ y hy ↦ entry_isFrame hy⟩

/-- Objects are skipped by their length alone: in a row of them, each hop leads to the next, and in
an array of objects or a map as many hops lead to its end as it has elements. -/
theorem encode_hops (o : Options) :
    (∀ (us : List Object) (enc : Object → List UInt8),
      (∀ u ∈ us, (object u).CustomFree ∧ (object u).encode o = .ok (enc u)) →
      ∀ i ≤ us.length, ∀ rest,
        Frame.hop^[i] (us.flatMap enc ++ rest) = (us.drop i).flatMap enc ++ rest) ∧
    (∀ vs bs, vs ≠ [] → (array .object vs).CustomFree → (array .object vs).encode o = .ok bs →
      HopsThrough vs.length bs) ∧
    (∀ j k es bs, es ≠ [] → (map j k es).CustomFree → (map j k es).encode o = .ok bs →
      HopsThrough es.length bs) := by
  refine ⟨?_, ?_, ?_⟩
  · intro us enc hus i hi rest
    refine Frame.hop_iterate (fun u hu ↦ ?_) hi rest
    obtain ⟨hfree, hencode⟩ := hus u hu
    exact object_isFrame hfree ((encode_eq_ok hfree).mp hencode)
  · intro vs bs hvs h hbs
    exact array_hops h hvs (body_of_encode h hbs)
  · intro j k es bs hes h hbs
    exact map_hops hes (body_of_encode h hbs)

/-- The object holds a frame and the bytes of the markers, and one more marker follows the row. -/
theorem framed_markers_hop :
    let u := Object.plain [object (.plain []), bytes [0x10, 0x11]]
    let x : List UInt8 :=
      [0x00, 20, 0, 0, 0, 0x0F, 0x00, 7, 0, 0, 0, 0x0F, 0x10, 0x11, 2, 4, 0x10, 4, 0x11, 0x10, 0x11]
    let entry : List UInt8 := [0x00, 29, 0, 0, 0, 0x0F] ++ x ++ [0x82, 0x10, 0x11]
    Frame.hop (x ++ x ++ [0x10]) = x ++ [0x10] ∧
      (array .object [object u, object u]).encode {} = .ok (0x40 :: 2 :: (x ++ x)) ∧
      Frame.HopsOver 2 (x ++ x) ∧
      (map .object .bool [(object u, bool true)]).encode {} = .ok (0x40 :: 1 :: entry) ∧
      Frame.HopsOver 1 entry := by
  intro u x entry
  have hu : (object u).CustomFree ∧ (object u).encode {} = .ok x :=
    ⟨by decide, eq_ok_of_toOption (by decide +kernel)⟩
  have harray : (array .object [object u, object u]).encode {} = .ok (0x40 :: 2 :: (x ++ x)) :=
    eq_ok_of_toOption (by decide +kernel)
  have hmap : (map .object .bool [(object u, bool true)]).encode {} = .ok (0x40 :: 1 :: entry) :=
    eq_ok_of_toOption (by decide +kernel)
  have hone : Base128.ofNat 1 = [1] := by decide +kernel
  have htwo : Base128.ofNat 2 = [2] := by decide +kernel
  obtain ⟨hobjects, harrays, hmaps⟩ := encode_hops {}
  have hus : ∀ w ∈ [u, u], (object w).CustomFree ∧ (object w).encode {} = .ok x :=
    List.forall_mem_cons.mpr ⟨hu, List.forall_mem_singleton.mpr hu⟩
  have hhop := hobjects [u, u] (fun _ ↦ x) hus 1 (by decide) [0x10]
  obtain ⟨row, hrow, hitems⟩ := harrays _ _ (List.cons_ne_nil _ _) (by decide) harray
  obtain ⟨row', hrow', hentries⟩ := hmaps _ _ _ _ (List.cons_ne_nil _ _) (by decide) hmap
  simp only [List.length_cons, List.length_nil, Nat.reduceAdd, hone, htwo, List.cons_append,
    List.nil_append, List.cons.injEq, true_and] at hrow hrow'
  exact ⟨hhop, harray, hrow.2 ▸ hitems, hmap, hrow'.2 ▸ hentries⟩

end Value

end TaggedWire
