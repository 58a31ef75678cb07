import TaggedWire.Proofs.SortedMap
import TaggedWire.Value.Rebuild

namespace TaggedWire

open Layout

def Layout.Entails (l m : Layout) : Prop := ∀ x, l = .ok x → m = .ok x

namespace Layout.Entails

variable {l m : Layout}

theorem within {o o' : Options} (ho : o.maxDepth ≤ o'.maxDepth) {d : Nat} (h : l.Entails m) :
    (within o d l).Entails (within o' d m) := by
  intro x hx
  obtain ⟨hd, hl⟩ := within_eq_ok.mp hx
  exact within_eq_ok.mpr ⟨Nat.lt_of_lt_of_le hd ho, h x hl⟩

theorem concat {α β : Type} {f : α → Layout} {g : β → Layout} {t : α → β} {as : List α}
    (h : ∀ a ∈ as, (f a).Entails (g (t a))) :
    (Layout.concat (as.map f)).Entails (Layout.concat ((as.map t).map g)) := by
  induction as with
  | nil => exact fun _ hx ↦ hx
  | cons a as ih =>
    intro x hx
    simp only [List.map_cons, concat_cons, bind_eq_ok, pure_eq_ok] at hx ⊢
    obtain ⟨y, hy, z, hz, rfl⟩ := hx
    have hrest := ih (fun b hb ↦ h b (List.mem_cons_of_mem a hb)) z hz
    exact ⟨y, h a List.mem_cons_self y hy, z, hrest, rfl⟩

end Layout.Entails

theorem Piece.isElement_of_arrayTag {arrays : IntegerArrays} {k : Kind} {t : List UInt8}
    (h : arrayTag arrays k = .ok t) : k.isElement := by
  cases k <;> first | rfl | cases h

namespace Value

variable {o : Options} {n d : Nat} {v : Value} {vs : List Value} {k : Kind}
  {es : List (Value × Value)} {x : List UInt8}

theorem flatten_plain : (object (.plain vs)).flatten = object (.plain (vs.map flatten)) := by
  rw [flatten, rebuild, rebuildAll_eq]
  rfl

theorem flatten_array : (array k vs).flatten = array k (vs.map flatten) := by
  rw [flatten, rebuild, rebuildAll_eq]
  rfl

def flattenEntry (e : Value × Value) : Value := object (.plain [e.1.flatten, e.2.flatten])

theorem flatten_map {j : Kind} : (map j k es).flatten = array .object (es.map flattenEntry) := by
  rw [flatten, rebuild, rebuildEntries_eq]
  simp [asArray, flattenEntry, flatten]

theorem customFree_ofByte (b : UInt8) : (ofByte b).CustomFree :=
  customFree_iff.mpr ((everywhere_leaf rfl).mpr rfl)

theorem customFree_flatten (h : v.CustomFree) : v.flatten.CustomFree := by
  induction v, h using CustomFree.induct with
  | bool | int | float | text | nil => assumption
  | bytes bs =>
    exact customFree_array.mpr (List.forall_mem_map.mpr fun b _ ↦ customFree_ofByte b)
  | pointer v h ih => exact customFree_pointer.mpr (ih h.pointer)
  | object vs h ih =>
    rw [flatten_plain, customFree_plain, List.forall_mem_map]
    exact fun v hv ↦ ih v hv (h.plain v hv)
  | array k vs h ih =>
    rw [flatten_array, customFree_array, List.forall_mem_map]
    exact fun v hv ↦ ih v hv (h.array v hv)
  | map j k es h ih =>
    rw [flatten_map, customFree_array, List.forall_mem_map]
    intro e he
    simp only [flattenEntry, customFree_plain, List.forall_mem_cons]
    exact ⟨(ih e he).1 (h.map e he).1, (ih e he).2 (h.map e he).2, fun v hv ↦ by cases hv⟩

theorem kind_flatten (hk : v.kind.isElement) : v.flatten.kind = v.kind := by
  cases v with
  | object u => cases u <;> rfl
  | bytes | map => cases hk
  | _ => rfl

/-- Below the byte strings in a value there is room for one more level. -/
def RoomForBytes (o : Options) (n : Nat) (v : Value) : Prop :=
  Everywhere (fun w ↦ ∀ c cs, w = bytes (c :: cs) → o.maxDepth < n) v

theorem ofByte_layout (b : UInt8) (hd : d < o.maxDepth) :
    (ofByte b).layout o d = .ok (Piece.byte b) := by
  obtain ⟨i, hi, hb⟩ := Piece.byte_eq b
  rw [hi, hb, layout_eq_ok]
  exact ⟨hd, rfl⟩

theorem bytes_body_flatten {bs : List UInt8} (hd : bs ≠ [] → d < o.maxDepth)
    (hx : Layout.bytes o.integerArrays bs = .ok x) : (bytes bs).flatten.body o d = .ok x := by
  cases bs with
  | nil => exact hx
  | cons b bs =>
    rw [Layout.bytes, if_neg (by simp)] at hx
    simp only [bind_eq_ok, pure_eq_ok, Piece.count_eq_ok] at hx
    obtain ⟨_, ⟨hlength, rfl⟩, rfl⟩ := hx
    have hitems : concat (((b :: bs).map ofByte).map fun v ↦ v.layout o d) =
        .ok ((b :: bs).flatMap Piece.byte) := by
      rw [List.map_map]
      exact concat_eq_flatMap fun c _ ↦ ofByte_layout c (hd (List.cons_ne_nil b bs))
    have hkinds : ∀ w ∈ (b :: bs).map ofByte, w.kind = .int .u8 :=
      List.forall_mem_map.mpr fun _ _ ↦ rfl
    refine body_array_cons_eq_ok.mpr ⟨_, _, rfl, ?_, hkinds, hitems, ?_⟩
    · simpa using hlength
    · simp

theorem entry_layout_flatten {e : Value × Value} (hn : o.maxDepth ≤ n)
    (hkey : (e.1.layout o (d + 1)).Entails
      (e.1.flatten.layout { o with maxDepth := n } (d + 1)))
    (hvalue : (e.2.layout o (d + 1)).Entails
      (e.2.flatten.layout { o with maxDepth := n } (d + 1))) :
    (entryLayout o d e).Entails ((flattenEntry e).layout { o with maxDepth := n } d) := by
  intro x hx
  obtain ⟨hd, y, z, hy, hz, hsize, rfl⟩ := entryLayout_eq_ok.mp hx
  refine layout_eq_ok.mpr ⟨Nat.lt_of_lt_of_le hd hn, body_plain_eq_ok.mpr ⟨y ++ z, ?_, hsize, rfl⟩⟩
  simp [hkey y hy, hvalue z hz]

theorem layout_flatten (h : v.CustomFree) (ho : o.sortedMaps = false) (hn : o.maxDepth ≤ n)
    (hroom : v.RoomForBytes o n) (d : Nat) :
    (v.layout o d).Entails (v.flatten.layout { o with maxDepth := n } d) := by
  induction v, h using CustomFree.induct generalizing d with
  | bool | int | float | text | nil => exact .within hn fun _ hx ↦ hx
  | bytes bs =>
    intro x hx
    obtain ⟨hd, hx⟩ := layout_eq_ok.mp hx
    refine layout_eq_ok.mpr ⟨Nat.lt_of_lt_of_le hd hn, bytes_body_flatten ?_ hx⟩
    intro hbs
    obtain ⟨c, cs, rfl⟩ := List.exists_cons_of_ne_nil hbs
    have hlt : o.maxDepth < n := (everywhere_iff.mp hroom).1 c cs rfl
    exact Nat.lt_of_le_of_lt hd hlt
  | pointer v h ih =>
    refine .within hn fun x hx ↦ ?_
    obtain ⟨y, hy, rfl⟩ := body_pointer_eq_ok.mp hx
    exact body_pointer_eq_ok.mpr ⟨y, ih h.pointer hroom.pointer (d + 1) y hy, rfl⟩
  | object vs h ih =>
    rw [flatten_plain]
    refine .within hn fun x hx ↦ ?_
    obtain ⟨p, hp, hsize, rfl⟩ := body_plain_eq_ok.mp hx
    have hfields := Layout.Entails.concat fun v hv ↦
      ih v hv (h.plain v hv) (hroom.plain v hv) (d + 1)
    exact body_plain_eq_ok.mpr ⟨p, hfields p hp, hsize, rfl⟩
  | array k vs h ih =>
    rw [flatten_array]
    refine .within hn fun x hx ↦ ?_
    cases vs with
    | nil => exact hx
    | cons v vs =>
      obtain ⟨tag, rest, htag, hlength, hkinds, hrest, rfl⟩ := body_array_cons_eq_ok.mp hx
      have hitems := Layout.Entails.concat fun w hw ↦
        ih w hw (h.array w hw) (hroom.array w hw) (d + 1)
      have hk := Piece.isElement_of_arrayTag htag
      have hkinds' : ∀ w ∈ (v :: vs).map flatten, w.kind = k := by
        refine List.forall_mem_map.mpr fun w hw ↦ ?_
        rw [kind_flatten (hkinds w hw ▸ hk), hkinds w hw]
      refine body_array_cons_eq_ok.mpr
        ⟨tag, rest, htag, by simpa using hlength, hkinds', hitems rest hrest, by simp⟩
  | map j k es h ih =>
    rw [flatten_map]
    refine .within hn fun x hx ↦ ?_
    cases es with
    | nil => exact hx
    | cons e es =>
      obtain ⟨-, hlength, rest, hrest, rfl⟩ :=
        (body_unsorted_map_eq_ok ho (List.cons_ne_nil e es)).mp hx
      have hentries := Layout.Entails.concat fun a ha ↦
        entry_layout_flatten hn ((ih a ha).1 (h.map a ha).1 (hroom.map a ha).1 (d + 2))
          ((ih a ha).2 (h.map a ha).2 (hroom.map a ha).2 (d + 2))
      have hkinds : ∀ w ∈ (e :: es).map flattenEntry, w.kind = .object :=
        List.forall_mem_map.mpr fun _ _ ↦ rfl
      exact body_array_cons_eq_ok.mpr
        ⟨_, rest, rfl, by simpa using hlength, hkinds, hentries rest hrest, by simp⟩

/-- A byte string is written as the array of its bytes and a map as the array of its entries,
wherever they stand. The items of byte strings take one level more. -/
theorem encode_flatten (v : Value) (h : v.CustomFree) (o : Options) (ho : o.sortedMaps = false)
    (bs : List UInt8) (hbs : v.encode o = .ok bs) :
    v.flatten.encode { o with maxDepth := o.maxDepth + 1 } = .ok bs ∧
    ((∀ cs, bytes cs ∈ v.subvalues → cs = []) → v.flatten.encode o = .ok bs) := by
  rw [encode_eq_ok (customFree_flatten h), encode_eq_ok (customFree_flatten h)]
  have hlayout := (encode_eq_ok h).mp hbs
  constructor
  · have hroom : v.RoomForBytes o (o.maxDepth + 1) := fun _ _ _ _ _ ↦ Nat.lt_succ_self o.maxDepth
    exact layout_flatten h ho (Nat.le_succ o.maxDepth) hroom 0 bs hlayout
  · intro hempty
    have hroom : v.RoomForBytes o o.maxDepth := by
      intro w hw c cs heq
      subst heq
      cases hempty _ hw
    exact layout_flatten h ho (Nat.le_refl o.maxDepth) hroom 0 bs hlayout

/-- The kinds that a map declares are gone, and the items of its key meet the limit. -/
theorem map_encode_flatten :
    let v := map .array .map [(bytes [5, 0], map .bool .bool [])]
    let w := map .array .map [(bytes [], map .bool .bool [])]
    let x := [0x40, 1, 0, 12, 0, 0, 0, 0x0F, 2, 4, 5, 0x84, 0xC0, 0x10, 0x11]
    let y := [0x40, 1, 0, 9, 0, 0, 0, 0x0F, 0xC4, 0xC0, 0x10, 0x11]
    v.flatten = array .object
      [object (.plain [array (.int .u8) [ofByte 5, ofByte 0], array .object []])] ∧
      v.encode { maxDepth := 3 } = .ok x ∧ v.flatten.encode { maxDepth := 4 } = .ok x ∧
      v.flatten.encode { maxDepth := 3 } = .error (.fault (.depthExceeded 3)) ∧
      w.encode { maxDepth := 3 } = .ok y ∧ w.flatten.encode { maxDepth := 3 } = .ok y := by
  intro v w x y
  have hx : v.encode { maxDepth := 3 } = .ok x := eq_ok_of_toOption (by decide +kernel)
  have hy : w.encode { maxDepth := 3 } = .ok y := eq_ok_of_toOption (by decide +kernel)
  have hempty : ∀ cs, bytes cs ∈ w.subvalues → cs = [] := by
    simp [w, subvalues, inside, insideEntries]
  have hlimit : v.flatten.encode { maxDepth := 3 } = .error (.fault (.depthExceeded 3)) := by
    with_unfolding_all rfl
  have hv := encode_flatten v (by decide) { maxDepth := 3 } rfl x hx
  have hw := encode_flatten w (by decide) { maxDepth := 3 } rfl y hy
  exact ⟨rfl, hx, hv.1, hlimit, hy, hw.2 hempty⟩

end Value

end TaggedWire
