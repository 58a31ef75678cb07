import TaggedWire.Proofs.Grammar
import TaggedWire.Proofs.Refinement

namespace TaggedWire

open Layout

namespace Value

def NoTextArrays (v : Value) : Prop :=
  Everywhere (fun w ↦ ∀ items, w = array .text items → items = []) v

theorem schemaless_plain (vs : List Value) :
    (object (.plain vs)).schemaless = object (.plain (vs.map schemaless)) := by
  rw [schemaless, rebuild, rebuildAll_eq]
  rfl

theorem schemaless_array {k : Kind} (hk : k ≠ .text) (vs : List Value) :
    (array k vs).schemaless = array k (vs.map schemaless) := by
  rw [schemaless, rebuild, rebuildAll_eq]
  cases k <;> first | rfl | contradiction

def entryObject (e : Value × Value) : Value := object (.plain [e.1.schemaless, e.2.schemaless])

theorem schemaless_map (j k : Kind) (es : List (Value × Value)) :
    (map j k es).schemaless = array .object (es.map entryObject) := by
  rw [schemaless, rebuild, rebuildEntries_eq]
  simp [asArray, mergeEmpty, entryObject, schemaless]

end Value

namespace Wires

variable {vs : List Value} {x bs : List UInt8} {o : Options} {depth : Nat}

theorem concat {α : Type} {f : α → Layout} {g : α → Value} {as : List α}
    (h : ∀ a ∈ as, ∀ x vs bs, f a = .ok x → Wires vs bs → Wires (g a :: vs) (x ++ bs))
    (hx : Layout.concat (as.map f) = .ok x) (hbs : Wires vs bs) :
    Wires (as.map g ++ vs) (x ++ bs) := by
  induction as generalizing x with
  | nil =>
    cases hx
    exact hbs
  | cons a as ih =>
    simp only [List.map_cons, concat_cons, bind_eq_ok, pure_eq_ok] at hx
    obtain ⟨y, hy, z, hz, rfl⟩ := hx
    have hrest := ih (fun b hb ↦ h b (List.mem_cons_of_mem a hb)) hz
    simpa using h a List.mem_cons_self y _ _ hy hrest

theorem bytes {cs : List UInt8} (hbs : Wires vs bs) :
    Wires (cs.map Value.ofByte ++ vs) (cs.flatMap Piece.byte ++ bs) := by
  induction cs with
  | nil => exact hbs
  | cons c cs ih =>
    obtain ⟨n, hn, hc⟩ := Piece.byte_eq c
    rw [List.map_cons, hn, List.flatMap_cons, hc, List.append_assoc]
    exact int n ih

theorem of_layout {v : Value} (h : v.CustomFree) (ht : v.NoTextArrays)
    (ho : o.integerArrays = .tagged) (hs : o.sortedMaps = false)
    (hx : v.layout o depth = .ok x) (hbs : Wires vs bs) : Wires (v.schemaless :: vs) (x ++ bs) := by
  induction v, h using Value.CustomFree.induct generalizing depth x vs bs with
  | bool b =>
    obtain ⟨-, hx⟩ := Value.layout_eq_ok.mp hx
    cases hx
    exact bool b hbs
  | int n =>
    obtain ⟨-, hx⟩ := Value.layout_eq_ok.mp hx
    cases hx
    exact int n hbs
  | float y =>
    obtain ⟨-, hx⟩ := Value.layout_eq_ok.mp hx
    cases hx
  | text t => exact text t (Value.layout_eq_ok.mp hx).2 hbs
  | bytes cs =>
    obtain ⟨-, hx⟩ := Value.layout_eq_ok.mp hx
    cases cs with
    | nil =>
      cases hx
      exact emptyArray (by decide) rfl hbs
    | cons c cs =>
      rw [Value.body, ho] at hx
      obtain ⟨-, rfl⟩ := Layout.bytes_cons_eq_ok.mp hx
      have hitems : Wires ((c :: cs).map Value.ofByte ++ vs) _ := bytes hbs
      have harray := array (k := .int .u8) (by decide) rfl hitems
      simpa [Value.schemaless, Value.rebuild, Value.asArray, Value.mergeEmpty,
        Piece.integerArrayTag, Tag.ofInt] using harray
  | nil =>
    obtain ⟨-, hx⟩ := Value.layout_eq_ok.mp hx
    cases hx
    exact null hbs
  | pointer v h ih =>
    obtain ⟨-, hx⟩ := Value.layout_eq_ok.mp hx
    obtain ⟨y, hy, rfl⟩ := Value.body_pointer_eq_ok.mp hx
    exact pointer (ih h.pointer ht.pointer hy hbs)
  | object ws h ih =>
    obtain ⟨-, hx⟩ := Value.layout_eq_ok.mp hx
    obtain ⟨p, hp, hsize, rfl⟩ := Value.body_plain_eq_ok.mp hx
    have hfields := concat (fun w hw _ _ _ ↦ ih w hw (h.plain w hw) (ht.plain w hw)) hp done
    rw [Value.schemaless_plain]
    simp only [List.append_nil] at hfields
    exact object hfields hsize hbs
  | array k ws h ih =>
    obtain ⟨-, hx⟩ := Value.layout_eq_ok.mp hx
    by_cases hk : k = .text
    · subst hk
      obtain rfl := (Value.everywhere_array.mp ht).1 ws rfl
      cases hx
      exact emptyArray (k := .int .u32) (by decide) rfl hbs
    · rw [Value.schemaless_array hk]
      cases ws with
      | nil => exact emptyArray hk hx hbs
      | cons w ws =>
        obtain ⟨tag, rest, htag, -, -, hrest, rfl⟩ := Value.body_array_cons_eq_ok.mp hx
        have hitems := concat (fun w hw _ _ _ ↦ ih w hw (h.array w hw) (ht.array w hw)) hrest hbs
        rw [ho] at htag
        simpa using array hk htag hitems
  | map j k es h ih =>
    obtain ⟨-, hx⟩ := Value.layout_eq_ok.mp hx
    rw [Value.schemaless_map]
    cases es with
    | nil =>
      cases hx
      exact emptyArray (by decide) rfl hbs
    | cons e es =>
      obtain ⟨-, -, arranged, rest, harranged, hrest, rfl⟩ := Value.body_map_cons_eq_ok.mp hx
      obtain rfl : e :: es = arranged := by simpa [order, hs] using harranged
      have hentries := concat (g := Value.entryObject) (fun a ha x vs bs hx hbs ↦ ?_) hrest hbs
      · simpa using array (k := .object) (by decide) rfl hentries
      · obtain ⟨-, y, z, hy, hz, hsize, rfl⟩ := Value.entryLayout_eq_ok.mp hx
        have hvalue := (ih a ha).2 (h.map a ha).2 (ht.map a ha).2 hz done
        have hkey := (ih a ha).1 (h.map a ha).1 (ht.map a ha).1 hy hvalue
        rw [List.append_nil] at hkey
        exact object hkey hsize hbs

end Wires

namespace Value

/-- Without a schema a reader still tells where a value ends and what it is, but for what
`schemaless` identifies. -/
theorem encode_append_inj (m n : Nat) {a b : Value} (ha : a.CustomFree) (hb : b.CustomFree)
    (hat : a.NoTextArrays) (hbt : b.NoTextArrays) {x y r s : List UInt8}
    (hx : a.encode { maxDepth := m, integerArrays := .tagged } = .ok x)
    (hy : b.encode { maxDepth := n, integerArrays := .tagged } = .ok y) (h : x ++ r = y ++ s) :
    a.schemaless = b.schemaless ∧ r = s := by
  have hxl := (encode_eq_ok ha).mp hx
  have hyl := (encode_eq_ok hb).mp hy
  have hxw := Wires.of_layout ha hat rfl rfl hxl .done
  have hyw := Wires.of_layout hb hbt rfl rfl hyl .done
  obtain ⟨heq, hrest⟩ := hxw.unique hyw (.inl rfl) (by simpa using h)
  exact ⟨List.head_eq_of_cons_eq heq, hrest⟩

/-- A byte string in a map, and the same written out as arrays, with different limits. -/
theorem map_schemaless_eq_array :
    let a := map .bool .array [(bool true, bytes [5, 0])]
    let b := array .object [object (.plain [bool true, array (.int .u8) [ofByte 5, ofByte 0]])]
    let x := [0x40, 1, 0, 13, 0, 0, 0, 0x0F, 0x82, 0x44, 2, 4, 5, 0x84, 0x10, 0x11]
    a.encode { maxDepth := 3, integerArrays := .tagged } = .ok x ∧
      b.encode { maxDepth := 7, integerArrays := .tagged } = .ok x ∧ a ≠ b ∧
      a.schemaless = b.schemaless := by
  intro a b x
  have ha : a.encode { maxDepth := 3, integerArrays := .tagged } = .ok x :=
    eq_ok_of_toOption (by decide +kernel)
  have hb : b.encode { maxDepth := 7, integerArrays := .tagged } = .ok x :=
    eq_ok_of_toOption (by decide +kernel)
  have hat : a.NoTextArrays := by simp [a, NoTextArrays, Everywhere, subvalues, inside, insideEntries]
  have hbt : b.NoTextArrays := by simp [b, NoTextArrays, Everywhere, subvalues, inside, insideAll, ofByte]
  have h := encode_append_inj 3 7 (by decide) (by decide) hat hbt ha hb (Eq.refl (x ++ []))
  exact ⟨ha, hb, by simp [a, b], h.1⟩

end Value

end TaggedWire
