import TaggedWire.Proofs.Refinement
import TaggedWire.Proofs.Shaped

namespace TaggedWire

open Layout

theorem Layout.order_of_sorted {k : Kind} {es : List (Value × Value)} (hk : k.hasNaturalOrder)
    (h : es.Pairwise fun a b ↦ ¬ b.1.rank < a.1.rank) (sorted : Bool)
    (encoding : Value × Value → Layout) : order sorted k Prod.fst encoding es = .ok es := by
  cases sorted with
  | false => rfl
  | true =>
    have hsort := List.mergeSort_of_pairwise (h.imp decide_eq_true)
    simp only [order, Entry.sort, hk, ↓reduceIte, hsort]

namespace Value

variable {v : Value} {o : Options}

def Presorted : Value → Prop
  | map j _ es => j.hasNaturalOrder ∧ es.Pairwise fun a b ↦ ¬ b.1.rank < a.1.rank
  | _ => True

theorem layout_of_body {sorted : Bool} {d : Nat}
    (h : v.body { o with sortedMaps := sorted } (d + 1) = v.body o (d + 1)) :
    v.layout { o with sortedMaps := sorted } d = v.layout o d := by
  rw [layout, layout, h]
  rfl

theorem body_of_presorted (h : Everywhere Presorted v) (o : Options) (sorted : Bool) (d : Nat) :
    v.body { o with sortedMaps := sorted } d = v.body o d := by
  induction v using by_parts generalizing d with
  | bool | int | float | text | bytes | nil | custom => rfl
  | pointer v ih =>
    simp only [body, ih h.pointer]
    rfl
  | plain vs ih =>
    have hfields : (vs.map fun v ↦ v.layout { o with sortedMaps := sorted } d) =
        vs.map fun v ↦ v.layout o d :=
      List.map_congr_left fun v hv ↦ layout_of_body (ih v hv (h.plain v hv) _)
    rw [body_plain, body_plain, hfields]
  | array k vs ih =>
    cases vs with
    | nil => rfl
    | cons v vs =>
      have hitems : itemBodies { o with sortedMaps := sorted } d k (v :: vs) =
          itemBodies o d k (v :: vs) := by
        rw [itemBodies_eq, itemBodies_eq]
        exact List.map_congr_left fun w hw ↦ by rw [layout_of_body (ih w hw (h.array w hw) _)]
      rw [body_array_cons, body_array_cons, hitems]
  | map j k es ih =>
    cases es with
    | nil => rfl
    | cons e es =>
      obtain ⟨⟨hj, hsorted⟩, hparts⟩ := everywhere_map.mp h
      have hentries : (e :: es).map (entryLayout { o with sortedMaps := sorted } d) =
          (e :: es).map (entryLayout o d) := by
        refine List.map_congr_left fun a ha ↦ ?_
        rw [entryLayout, layout_of_body ((ih a ha).1 (hparts a ha).1 _),
          layout_of_body ((ih a ha).2 (hparts a ha).2 _)]
        rfl
      simp only [body_map_cons, order_of_sorted hj hsorted, ok_bind, hentries]

theorem encode_of_presorted (h : Everywhere Presorted v) (hfree : v.CustomFree) (o : Options)
    (sorted : Bool) : v.encode { o with sortedMaps := sorted } = v.encode o := by
  rw [encode_eq hfree, encode_eq hfree, layout_of_body (body_of_presorted h o sorted _)]

end Value

namespace Datum

variable {S : Schema} {k t : Shape} {d e : Datum} {ds : List Datum} {es : List (Datum × Datum)}

theorem allNaturallyOrdered_iff : AllNaturallyOrdered ds ↔ ∀ d ∈ ds, d.NaturallyOrdered := by
  induction ds with
  | nil => simp [AllNaturallyOrdered]
  | cons d ds ih => simp [AllNaturallyOrdered, ih]

theorem entriesNaturallyOrdered_iff :
    EntriesNaturallyOrdered es ↔ ∀ e ∈ es, e.1.NaturallyOrdered ∧ e.2.NaturallyOrdered := by
  induction es with
  | nil => simp [EntriesNaturallyOrdered]
  | cons e es ih =>
    obtain ⟨a, b⟩ := e
    simp [EntriesNaturallyOrdered, ih, and_assoc]

theorem rank_toValue (hk : k.kind.hasNaturalOrder) (hd : d.HasShape S k) (he : e.HasShape S k)
    (h : d.compare e = .lt) : ¬ e.toValue.rank < d.toValue.rank := by
  induction d, k, hd using HasShape.by_parts generalizing e with
  | bool b hd =>
    cases e with
    | bool c =>
      have hbool : ∀ b c, (bool b).compare (bool c) = .lt → ¬ c < b := by decide
      exact mt Value.rank_bool_lt.mp (hbool b c h)
    | _ => simp [HasShape] at he
  | int m j hd =>
    cases e with
    | int n =>
      have hlt : m.val < n.val := Int.compare_eq_lt.mp h
      exact mt Value.rank_int_lt.mp (Int.lt_asymm hlt)
    | _ => simp [HasShape] at he
  | text s hd =>
    cases e with
    | text u =>
      have hlt : s < u := compareOfLessAndEq_eq_lt.mp h
      exact mt Value.rank_text_lt.mp (String.lt_asymm hlt)
    | _ => simp [HasShape] at he
  | boxed d s hd ih =>
    cases e with
    | boxed e =>
      have hde : ¬ e.toValue.rank < d.toValue.rank := ih hd hk he h
      exact hde
    | _ => simp [HasShape] at he
  | _ => cases hk

theorem HasShape.everywhere_presorted (hd : d.HasShape S t) (ht : ¬ Shape.Occurs S .object t)
    (hn : d.NaturallyOrdered) : Value.Everywhere Value.Presorted d.toValue := by
  induction d, t, hd using HasShape.by_parts with
  | bool | int | float | text | bytes | none => exact (Value.everywhere_leaf rfl).mpr trivial
  | object => exact absurd .here ht
  | boxed d s hd ih => exact ih hd (fun hs ↦ ht (.boxed hs)) hn
  | some d s hd ih =>
    exact Value.everywhere_pointer.mpr ⟨trivial, ih hd (fun hs ↦ ht (.option hs)) hn⟩
  | list ds s hd ih =>
    obtain ⟨-, hds⟩ := hasShape_list.mp hd
    rw [NaturallyOrdered, allNaturallyOrdered_iff] at hn
    rw [toValue, listToValue_eq, Value.everywhere_array, List.forall_mem_map]
    exact ⟨trivial, fun d hd ↦ ih d hd (hds d hd) (fun hs ↦ ht (.list hs)) (hn d hd)⟩
  | orderedMap es k v hd ih =>
    obtain ⟨-, -, hes, hlt⟩ := hasShape_orderedMap.mp hd
    rw [NaturallyOrdered, entriesNaturallyOrdered_iff] at hn
    obtain ⟨hk, hparts⟩ := hn
    have hsorted : (es.map entryToValue).Pairwise fun a b ↦ ¬ b.1.rank < a.1.rank := by
      rw [List.pairwise_map]
      exact hlt.imp_of_mem fun ha hb ↦ rank_toValue hk (hes.keys _ ha) (hes.keys _ hb)
    rw [toValue, entriesToValue_eq, Value.everywhere_map, List.forall_mem_map]
    refine ⟨⟨hk, hsorted⟩, fun e he ↦ ⟨?_, ?_⟩⟩
    · exact (ih e he).1 (hes.keys e he) (fun hs ↦ ht (.orderedKey hs)) (hparts e he).1
    · exact (ih e he).2 (hes.values e he) (fun hs ↦ ht (.orderedValue hs)) (hparts e he).2
  | hashedMap => exact False.elim hn
  | record n ds hd ih =>
    obtain ⟨-, hds⟩ := hasShape_record.mp hd
    rw [NaturallyOrdered, allNaturallyOrdered_iff] at hn
    rw [toValue, listToValue_eq, Value.everywhere_plain, List.forall_mem_map]
    refine ⟨trivial, fun d hd ↦ ?_⟩
    obtain ⟨s, hs, hds'⟩ := exists_shape_of_mem hds hd
    exact ih d hd s hds' (fun hobject ↦ ht (.field hs hobject)) (hn d hd)

/-- Where all maps are ordered ones with booleans, numbers or texts as keys, sorting them changes
nothing: the bytes, or the fault, are the same with and without. -/
theorem encode_toValue_presorted (hd : d.HasShape S t) (ht : ¬ Shape.Occurs S .object t)
    (hn : d.NaturallyOrdered) (o : Options) :
    d.toValue.encode { o with sortedMaps := true } =
      d.toValue.encode { o with sortedMaps := false } := by
  have hpresorted := hd.everywhere_presorted ht hn
  have hfree := toValue_customFree ht hd
  exact (Value.encode_of_presorted hpresorted hfree o true).trans
    (Value.encode_of_presorted hpresorted hfree o false).symm

/-- Texts in the order of their code points, which is not that of their code units, and below them
numbers on both sides of zero. -/
theorem code_points_encode_presorted :
    let S : Schema := fun _ ↦ []
    let low : Datum := int ⟨.i8, -1, by decide, by decide⟩
    let high : Datum := int ⟨.i8, 1, by decide, by decide⟩
    let numbers := orderedMap (.int .i8) .bool [(low, bool true), (high, bool true)]
    let t := Shape.orderedMap (.boxed .text) (.orderedMap (.int .i8) .bool)
    let d := orderedMap (.boxed .text) (.orderedMap (.int .i8) .bool)
      [(boxed (text "\uFFFF"), numbers), (boxed (text "😀"), numbers)]
    d.HasShape S t ∧ ¬ Shape.Occurs S .object t ∧ d.NaturallyOrdered ∧
      ∃ bs, d.toValue.encode { sortedMaps := true } = .ok bs ∧ d.toValue.encode {} = .ok bs := by
  intro S low high numbers t d
  have hnumber : (Shape.int .i8).IsKey S := by
    intro u hu
    cases hu
    trivial
  have htext : (Shape.boxed .text).IsKey S := by
    intro u hu
    cases hu with
    | here => trivial
    | boxed hu =>
      cases hu
      trivial
  have hlow : low.compare high = .lt := by decide
  have htexts : (boxed (text "\uFFFF")).compare (boxed (text "😀")) = .lt := by decide
  have hnumbers : numbers.HasShape S (.orderedMap (.int .i8) .bool) :=
    ⟨rfl, rfl, fun _ ↦ hnumber, ⟨rfl, trivial, rfl, trivial, trivial⟩, by simpa using hlow⟩
  have hd : d.HasShape S t :=
    ⟨rfl, rfl, fun _ ↦ htext, ⟨trivial, hnumbers, trivial, hnumbers, trivial⟩, by simpa using htexts⟩
  have ht : ¬ Shape.Occurs S .object t := by
    intro h
    dsimp only [t] at h
    cases h with
    | orderedKey h =>
      cases h with
      | boxed h => cases h
    | orderedValue h =>
      cases h with
      | orderedKey h | orderedValue h => cases h
  have hn : d.NaturallyOrdered := by
    simp [d, numbers, low, high, NaturallyOrdered, EntriesNaturallyOrdered, Shape.kind,
      Kind.hasNaturalOrder]
  have hsome : (d.toValue.encode {}).toOption.isSome := by decide +kernel
  obtain ⟨bs, hbs⟩ := Option.isSome_iff_exists.mp hsome
  have hbytes : d.toValue.encode {} = .ok bs := eq_ok_of_toOption hbs
  exact ⟨hd, ht, hn, bs, (encode_toValue_presorted hd ht hn {}).trans hbytes, hbytes⟩

end Datum

end TaggedWire
