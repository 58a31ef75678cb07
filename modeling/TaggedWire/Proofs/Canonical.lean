import TaggedWire.Proofs.Alike
import TaggedWire.Proofs.Recovery

namespace TaggedWire

namespace Datum

variable {S : Schema} {k v t : Shape} {d e x y : Datum} {es fs : List (Datum × Datum)} {o : Options}

theorem Entries.perm (h : Entries S k v es) (hp : es.Perm fs) : Entries S k v fs where
  isKey a ha := h.isKey a (hp.mem_iff.mpr ha)
  keys a ha := h.keys a (hp.mem_iff.mpr ha)
  values a ha := h.values a (hp.mem_iff.mpr ha)

theorem Entries.entryToValue_customFree (h : Entries S k v es) (hv : ¬ Shape.Occurs S .object v) :
    ∀ a ∈ es.map entryToValue, a.1.CustomFree ∧ a.2.CustomFree := by
  rw [List.forall_mem_map]
  intro a ha
  have hk : ¬ Shape.Occurs S .object k := fun hocc ↦ h.isKey a ha _ hocc
  exact ⟨toValue_customFree hk (h.keys a ha), toValue_customFree hv (h.values a ha)⟩

/-- The sort separates the entries of a typed map: by what their keys hold when these have a natural
order, else by their encodings, from which typed keys can be recovered. -/
theorem Entries.eq_of_tied (h : Entries S k v es) (hv : ¬ Shape.Occurs S .object v)
    (hne : es.Pairwise fun a b ↦ a.1.compare b.1 ≠ .eq) (ho : o.sortedMaps = true)
    (hk : o.integerArrays = .tagged ∨ k.kind.hasNaturalOrder) {n : Nat}
    (hw : Value.Writable o n k.kind v.kind (es.map entryToValue)) {a b : Datum × Datum}
    (ha : a ∈ es) (hb : b ∈ es)
    (hab : Entry.Tied k.kind (Value.keyBytes o) (entryToValue a) (entryToValue b)) : a = b := by
  have hkeys : (es.map (·.1)).Nodup := h.settle_key ▸ h.nodup hne
  refine List.inj_on_of_nodup_map hkeys ha hb ?_
  have ha' : entryToValue a ∈ es.map entryToValue := List.mem_map_of_mem ha
  have hb' : entryToValue b ∈ es.map entryToValue := List.mem_map_of_mem hb
  by_cases hn : k.kind.hasNaturalOrder
  · rw [Entry.Tied, if_pos hn] at hab
    have hka : a.1.toValue.kind = k.kind := (hw.kinds _ ha').1
    have hkb : b.1.toValue.kind = k.kind := (hw.kinds _ hb').1
    have hvalue := Value.eq_of_rank (hka.trans hkb.symm) (hka ▸ hn) hab
    exact eq_of_toValue (h.keys a ha) (h.keys b hb) hvalue
  · rw [Entry.Tied, if_neg hn] at hab
    have htagged : o.integerArrays = .tagged := hk.resolve_right hn
    have hfree := h.entryToValue_customFree hv
    have hencode (c) (hc : c ∈ es.map entryToValue) :=
      (Value.encode_eq_ok (hfree c hc).1).mp
        (Value.entryLayout_eq_around ho (hfree c hc) (hw.laid c hc)).1
    have htells := layout_tells (fun hocc ↦ h.isKey a ha _ hocc) (h.keys a ha) (h.keys b hb) htagged
      htagged 0 0 _ _ [] [] (hencode _ ha') (hencode _ hb') (congrArg (· ++ []) hab)
    calc
      a.1 = a.1.settle := (settle_of_isKey (h.isKey a ha) (h.keys a ha)).symm
      _ = b.1.settle := htells.1
      _ = b.1 := settle_of_isKey (h.isKey b hb) (h.keys b hb)

theorem Entries.alike (h : Entries S k v es) (h' : Entries S k v fs)
    (hv : ¬ Shape.Occurs S .object v) (ho : o.sortedMaps = true)
    (heq : es.map settleEntry = fs.map settleEntry)
    (hvalue : ∀ a ∈ es, ∀ b ∈ fs, a.2.settle = b.2.settle →
      Value.Alike o o a.2.toValue b.2.toValue) :
    Value.Alike o o (.map k.kind v.kind (es.map entryToValue))
      (.map k.kind v.kind (fs.map entryToValue)) := by
  refine .map ho (fun a ha ↦ (h.entryToValue_customFree hv a ha).1) ?_
  rw [List.forall₂_map_left_iff, List.forall₂_map_right_iff]
  refine (forall₂_zip_of_map_eq heq).imp fun a b hab ↦ ?_
  obtain ⟨hzip, hsettle⟩ := hab
  obtain ⟨ha, hb⟩ := List.of_mem_zip hzip
  obtain ⟨hkey, hvalues⟩ := Prod.ext_iff.mp hsettle
  have hkey' : a.1 = b.1 := by
    have hkeys : a.1.settle = b.1.settle := hkey
    rwa [settle_of_isKey (h.isKey a ha) (h.keys a ha), settle_of_isKey (h'.isKey b hb) (h'.keys b hb)] at hkeys
  exact ⟨congrArg toValue hkey', hvalue a ha b hb hvalues⟩

/-- Nothing in data of the shape writes itself, and where a key of a hashed map is sorted by its
encoding, the encoding tells the key. -/
def Told (S : Schema) (o : Options) (t : Shape) : Prop :=
  ¬ Shape.Occurs S .object t ∧ (o.integerArrays = .tagged ∨
    ∀ k v, Shape.Occurs S (.hashedMap k v) t → k.kind.hasNaturalOrder)

theorem Told.part {s : Shape} (h : Told S o t) (hs : ∀ u, Shape.Occurs S u s → Shape.Occurs S u t) :
    Told S o s :=
  ⟨fun hobject ↦ h.1 (hs _ hobject), h.2.imp_right fun hnatural k v hmap ↦ hnatural k v (hs _ hmap)⟩

theorem alike_of_settle_eq (ht : Told S o t) (hx : x.HasShape S t) (hy : y.HasShape S t)
    (ho : o.sortedMaps = true) (h : x.settle = y.settle) :
    Value.Alike o o x.toValue y.toValue := by
  induction x, t, hx using HasShape.by_parts generalizing y with
  | bool b _ | int n k _ | float z k _ | text u _ | bytes bs _ | none s _ =>
    cases y <;> simp_all [HasShape, settle, Value.Alike.refl]
  | object u _ => exact absurd .here ht.1
  | boxed x s hx ih =>
    cases y with
    | boxed y =>
      rw [settle, settle, boxed.injEq] at h
      have hxy : Value.Alike o o x.toValue y.toValue := ih hx (ht.part fun _ ↦ .boxed) hy h
      exact hxy
    | _ => simp [HasShape] at hy
  | some x s hx ih =>
    cases y with
    | some y =>
      rw [settle, settle, some.injEq] at h
      exact .pointer rfl (ih hx (ht.part fun _ ↦ .option) hy h)
    | none => simp [settle] at h
    | _ => simp [HasShape] at hy
  | list xs s hx ih =>
    cases y with
    | list elem ys =>
      obtain ⟨-, hxs⟩ := hasShape_list.mp hx
      obtain ⟨rfl, hys⟩ := hasShape_list.mp hy
      rw [settle, settle, list.injEq, settleAll_eq, settleAll_eq] at h
      rw [toValue, toValue, listToValue_eq, listToValue_eq]
      refine .array rfl rfl ?_
      rw [List.forall₂_map_left_iff, List.forall₂_map_right_iff]
      refine (forall₂_zip_of_map_eq h.2).imp fun a b hab ↦ ?_
      obtain ⟨ha, hb⟩ := List.of_mem_zip hab.1
      exact ih a ha (hxs a ha) (ht.part fun _ ↦ .list) (hys b hb) hab.2
    | _ => simp [HasShape] at hy
  | orderedMap es k v hx ih =>
    cases y with
    | orderedMap key value fs =>
      obtain ⟨-, -, hes, -⟩ := hasShape_orderedMap.mp hx
      obtain ⟨rfl, rfl, hfs, -⟩ := hasShape_orderedMap.mp hy
      have hvalue := ht.part fun _ ↦ .orderedValue
      rw [settle, settle, orderedMap.injEq, settleEntries_eq, settleEntries_eq] at h
      rw [toValue, toValue, entriesToValue_eq, entriesToValue_eq]
      exact hes.alike hfs hvalue.1 ho h.2.2 fun a ha b hb hab ↦
        (ih a ha).2 (hes.values a ha) hvalue (hfs.values b hb) hab
    | _ => simp [HasShape] at hy
  | hashedMap es k v hx ih =>
    cases y with
    | hashedMap key value fs =>
      obtain ⟨-, -, hes, hne⟩ := hasShape_hashedMap.mp hx
      obtain ⟨rfl, rfl, hfs, hne'⟩ := hasShape_hashedMap.mp hy
      have hvalue := ht.part fun _ ↦ .hashedValue
      have hperm := (settle_hashedMap_iff hes hfs hne).mp h
      -- The entries of the one map in the order of the other: between them and the first lies a
      -- permutation, between them and the second only what their values differ in.
      obtain ⟨gs, hgs, hsettle⟩ := exists_map_eq_of_perm hperm.symm
      have hfirst : Value.Alike o o (.map key.kind value.kind (es.map entryToValue))
          (.map key.kind value.kind (gs.map entryToValue)) := by
        refine .map_of_perm ho (Value.customFree_map.mpr (hes.entryToValue_customFree hvalue.1))
          (hgs.symm.map entryToValue) fun d hw ↦ ?_
        have htied (a) (ha : a ∈ es) (b) (hb : b ∈ es) := hes.eq_of_tied hvalue.1 hne ho
          (ht.2.imp_right fun hnatural ↦ hnatural key value .here) hw ha hb
        simp only [List.forall_mem_map]
        exact fun a ha b hb hab ↦ congrArg (Value.payload o ∘ entryToValue) (htied a ha b hb hab)
      have hsecond := (hes.perm hgs.symm).alike hfs hvalue.1 ho hsettle fun a ha b hb hab ↦
        (ih a (hgs.mem_iff.mp ha)).2 (hes.values a (hgs.mem_iff.mp ha)) hvalue (hfs.values b hb) hab
      rw [toValue, toValue, entriesToValue_eq, entriesToValue_eq]
      exact hfirst.trans hsecond
    | _ => simp [HasShape] at hy
  | record n xs hx ih =>
    cases y with
    | record m ys =>
      obtain ⟨-, hxs⟩ := hasShape_record.mp hx
      obtain ⟨rfl, hys⟩ := hasShape_record.mp hy
      rw [settle, settle, record.injEq, settleAll_eq, settleAll_eq] at h
      rw [toValue, toValue, listToValue_eq, listToValue_eq]
      refine .plain rfl ?_
      rw [List.forall₂_map_left_iff, List.forall₂_map_right_iff]
      refine (forall₂_zip_of_map_eq h.2).imp fun a b hab ↦ ?_
      obtain ⟨ha, s, hs, has, hbs⟩ := List.forall₂_zip (forall₂_of_shapes hxs hys) hab.1
      exact ih a ha s has (ht.part fun _ ↦ .field hs) hbs hab.2
    | _ => simp [HasShape] at hy

/-- When maps are sorted, the encoding of typed data does not show the orders in which the hashed
maps inside were visited: integer arrays are to be tagged, or the keys of those maps to have a
natural order. -/
theorem encode_toValue_canonical (ht : ¬ Shape.Occurs S .object t) (hx : x.HasShape S t)
    (hy : y.HasShape S t) (hxy : x.settle = y.settle) (ho : o.sortedMaps = true)
    (hk : o.integerArrays = .tagged ∨
      ∀ k v, Shape.Occurs S (.hashedMap k v) t → k.kind.hasNaturalOrder) (bs : List UInt8) :
    x.toValue.encode o = .ok bs ↔ y.toValue.encode o = .ok bs := by
  rw [Value.encode_eq_ok (toValue_customFree ht hx), Value.encode_eq_ok (toValue_customFree ht hy)]
  exact (alike_of_settle_eq ⟨ht, hk⟩ hx hy ho hxy).layout 0 bs

/-- A hashed map with optional keys, visited in two orders. -/
theorem hashedMap_canonical :
    let entries : List (Datum × Datum) := [(none, bool true), (some (bool true), bool false)]
    let x := hashedMap (.option .bool) .bool entries
    let y := hashedMap (.option .bool) .bool entries.reverse
    let o : Options := { sortedMaps := true, integerArrays := .tagged }
    x ≠ y ∧ x.settle = y.settle ∧
      ∃ bs, x.toValue.encode o = .ok bs ∧ y.toValue.encode o = .ok bs := by
  intro entries x y o
  let S : Schema := fun _ ↦ []
  let t := Shape.hashedMap (.option .bool) .bool
  have ht : ¬ Shape.Occurs S .object t := by
    intro h
    dsimp only [t] at h
    cases h with
    | hashedKey h =>
      cases h with
      | option h => cases h
    | hashedValue h => cases h
  have hkey : (Shape.option .bool).IsKey S := by
    intro u h
    cases h with
    | here => trivial
    | option h =>
      cases h
      trivial
  have hx : x.HasShape S t := by
    simp [x, t, entries, HasShape, hkey, EntriesHaveShape, compare]
  have hy : y.HasShape S t := by
    simp [y, t, entries, HasShape, hkey, EntriesHaveShape, compare]
  have hxy : x.settle = y.settle := by
    obtain ⟨-, -, hes, hne⟩ := hasShape_hashedMap.mp hx
    obtain ⟨-, -, hfs, -⟩ := hasShape_hashedMap.mp hy
    exact (settle_hashedMap_iff hes hfs hne).mpr (entries.reverse_perm.symm.map settleEntry)
  have hp : x.toValue.encode o = .ok (Value.sortedMap o .pointer (entries.map entryToValue)) :=
    Value.encode_map_of_isSome rfl (toValue_customFree ht hx) (List.cons_ne_nil _ _) (by decide)
      (by decide) (by decide) (by decide +kernel)
  exact ⟨by simp [x, y, entries], hxy, _, hp,
    (encode_toValue_canonical ht hx hy hxy rfl (.inl rfl) _).mp hp⟩

end Datum

end TaggedWire
