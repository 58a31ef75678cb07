import TaggedWire.Proofs.Alike

namespace TaggedWire

open Layout

namespace Value

variable {o : Options} {v : Value} {j k : Kind} {es : List (Value × Value)}

theorem sortDeepAll_eq (vs : List Value) : sortDeepAll o vs = vs.map (sortDeep o) := by
  induction vs with
  | nil => rfl
  | cons v vs ih => rw [sortDeepAll, ih, List.map_cons]

def sortEntry (o : Options) (e : Value × Value) : Value × Value := (e.1.sortDeep o, e.2.sortDeep o)

theorem sortDeepEntries_eq (es : List (Value × Value)) :
    sortDeepEntries o es = es.map fun e ↦ (e.1, sortEntry o e) := by
  induction es with
  | nil => rfl
  | cons e es ih => rw [sortDeepEntries, ih, List.map_cons]; rfl

theorem sortDeep_map : (map j k es).sortDeep o =
    map j k ((Entry.sort j Prod.fst (keyBytes o) es).map (sortEntry o)) := by
  rw [sortDeep, sortDeepEntries_eq, Entry.sort_map, List.map_map]
  rfl

theorem sortDeep_pair {a b : Value × Value}
    (h : if j.hasNaturalOrder then b.1.rank < a.1.rank else ¬ keyBytes o a ≤ keyBytes o b) :
    (map j k [a, b]).sortDeep o = map j k [sortEntry o b, sortEntry o a] := by
  rw [sortDeep_map, Entry.sort_pair h]
  rfl

theorem customFree_sortDeep (h : v.CustomFree) : (v.sortDeep o).CustomFree := by
  induction v, h using CustomFree.induct with
  | bool | int | float | text | bytes | nil => assumption
  | pointer v h ih => exact customFree_pointer.mpr (ih h.pointer)
  | object vs h ih =>
    rw [sortDeep, sortDeepAll_eq, customFree_plain, List.forall_mem_map]
    exact fun v hv ↦ ih v hv (h.plain v hv)
  | array k vs h ih =>
    rw [sortDeep, sortDeepAll_eq, customFree_array, List.forall_mem_map]
    exact fun v hv ↦ ih v hv (h.array v hv)
  | map j k es h ih =>
    rw [sortDeep_map, customFree_map, List.forall_mem_map]
    intro e he
    have he' := Entry.sort_perm.mem_iff.mp he
    exact ⟨(ih e he').1 (h.map e he').1, (ih e he').2 (h.map e he').2⟩

theorem sortDeep_alike (h : v.CustomFree) (o : Options) :
    Alike { o with sortedMaps := true } { o with sortedMaps := false } v (v.sortDeep o) := by
  induction v, h using CustomFree.induct with
  | bool | int | float | text | bytes | nil => exact .of_body rfl rfl fun _ ↦ .refl _
  | pointer v h ih => exact .pointer rfl (ih h.pointer)
  | object vs h ih =>
    rw [sortDeep, sortDeepAll_eq]
    exact .plain rfl (forall₂_map_self fun v hv ↦ ih v hv (h.plain v hv))
  | array k vs h ih =>
    rw [sortDeep, sortDeepAll_eq]
    exact .array rfl rfl (forall₂_map_self fun v hv ↦ ih v hv (h.array v hv))
  | map j k es h ih =>
    rw [sortDeep_map]
    refine .of_body rfl rfl fun d x ↦ ?_
    rcases eq_or_ne es [] with rfl | hes
    · rw [List.perm_nil.mp Entry.sort_perm]
      exact .rfl
    have hperm : (Entry.sort j Prod.fst (keyBytes o) es).Perm es := Entry.sort_perm
    have hne : (Entry.sort j Prod.fst (keyBytes o) es).map (sortEntry o) ≠ [] := by
      rw [Ne, List.map_eq_nil_iff]
      exact fun hnil ↦ hes (List.nil_perm.mp (hnil ▸ hperm))
    rw [body_sorted_map_eq_ok rfl hes fun a ha ↦ (h.map a ha).1, body_unsorted_map_eq_ok rfl hne]
    apply Alike.laidInOrder
    · refine forall₂_map_self fun a ha ↦ ?_
      have hmem := hperm.mem_iff.mp ha
      exact ⟨(ih a hmem).1 (h.map a hmem).1, (ih a hmem).2 (h.map a hmem).2⟩
    · rfl

theorem layout_of_write (h : v.CustomFree) {e e' : Encoder} (hw : v.write e = .ok () e') :
    ∃ bs, v.layout e.options e.depth = .ok bs ∧ e' = e.put bs := by
  have hfollows := write_follows (emit_follows v h) e
  cases hl : v.layout e.options e.depth with
  | ok bs =>
    rw [hl] at hfollows
    have hbs : v.write e = .ok () (e.put bs) := hfollows
    rw [hw] at hbs
    cases hbs
    exact ⟨bs, rfl, rfl⟩
  | error f =>
    rw [hl] at hfollows
    obtain ⟨bs, hbs⟩ := hfollows
    rw [hw] at hbs
    cases hbs

theorem write_sorted_map (h : (map j k es).CustomFree) (hes : es ≠ []) {e e' : Encoder}
    (ho : e.options.sortedMaps = true) (hw : (map j k es).write e = .ok () e') :
    (∀ a ∈ es, a.1.encode e.options = .ok (a.1.sortedBytes e.options) ∧
      a.2.encode e.options = .ok (a.2.sortedBytes e.options)) ∧
    e' = e.put (sortedMap e.options j es) := by
  obtain ⟨bs, hbs, rfl⟩ := layout_of_write h hw
  obtain ⟨hwritable, rfl⟩ := (body_eq_sortedMap ho hes h).mp (layout_eq_ok.mp hbs).2
  have hentry (a) (ha : a ∈ es) := entryLayout_eq_around ho (h.map a ha) (hwritable.laid a ha)
  exact ⟨fun a ha ↦ ⟨(hentry a ha).1, (hentry a ha).2.1⟩, rfl⟩

/-- Encoding a value with its maps sorted is encoding the value in which the maps have been sorted,
at every depth. Each of its maps, wherever it is written, writes each entry once, and the entries in
the order of their keys: the natural one, or that of the bytes which the keys are written as. -/
theorem encode_sortDeep (v : Value) (h : v.CustomFree) (o : Options) :
    (∀ bs, v.encode { o with sortedMaps := true } = .ok bs ↔
      (v.sortDeep o).encode { o with sortedMaps := false } = .ok bs) ∧
    ∀ j k es, map j k es ∈ v.subvalues → es ≠ [] →
      ∀ e e' : Encoder, e.options = { o with sortedMaps := true } →
        (map j k es).write e = .ok () e' →
        (∀ a ∈ es, a.1.encode { o with sortedMaps := true } = .ok (a.1.sortedBytes o) ∧
          a.2.encode { o with sortedMaps := true } = .ok (a.2.sortedBytes o)) ∧
        ∃ arranged : List (Value × Value), arranged.Perm es ∧
          e' = e.put (Tag.object.asArray :: Base128.ofNat es.length ++ arranged.flatMap fun a ↦
            Frame.around (a.1.sortedBytes o ++ a.2.sortedBytes o)) ∧
          (j.hasNaturalOrder → arranged.Pairwise fun a b ↦ ¬ b.1.rank < a.1.rank) ∧
          (¬ j.hasNaturalOrder → arranged.Pairwise fun a b ↦ a.1.sortedBytes o ≤ b.1.sortedBytes o) := by
  constructor
  · intro bs
    rw [encode_eq_ok h, encode_eq_ok (customFree_sortDeep h)]
    exact (sortDeep_alike h o).layout 0 bs
  · intro j k es hmem hes e e' ho hw
    have hmap : (map j k es).CustomFree := h.everywhere _ hmem
    have hsorted : e.options.sortedMaps = true := by rw [ho]
    obtain ⟨hencode, rfl⟩ := write_sorted_map hmap hes hsorted hw
    have hordered := Entry.sort_ordered j (keyBytes o) es
    rw [ho] at hencode
    refine ⟨hencode, Entry.sort j Prod.fst (keyBytes o) es, Entry.sort_perm, ?_, hordered⟩
    rw [ho]
    rfl

/-- False comes before true, -1 before 1 and "ab" before "b", where the encodings stand the other
way round; of references, which go by their encodings, the one to true comes first. -/
theorem references_encode_sorted :
    let low := int ⟨.i8, -1, by decide, by decide⟩
    let high := int ⟨.i8, 1, by decide, by decide⟩
    let v := object (.plain [
      map .bool .bool [(bool true, bool true), (bool false, bool true)],
      map (.int .i8) .bool [(high, bool true), (low, bool true)],
      map .text .bool [(text "b", bool true), (text "ab", bool true)],
      map .pointer .bool [(pointer (bool false), bool true), (pointer (bool true), bool true)]])
    v.CustomFree ∧ v.encode { sortedMaps := true } = .ok [0x00, 0x6B, 0, 0, 0, 0x0F,
      0x40, 2, 0x00, 9, 0, 0, 0, 0x0F, 0x92, 0x82, 0x10, 0x11,
        0x00, 9, 0, 0, 0, 0x0F, 0x82, 0x82, 0x10, 0x11,
      0x40, 2, 0x00, 10, 0, 0, 0, 0x0F, 0x03, 0xFF, 0x82, 0x10, 0x11,
        0x00, 10, 0, 0, 0, 0x0F, 0x03, 0x01, 0x82, 0x10, 0x11,
      0x40, 2, 0x00, 14, 0, 0, 0, 0x0F, 0x4D, 2, 0x61, 0, 0x62, 0, 0x82, 0x10, 0x11,
        0x00, 12, 0, 0, 0, 0x0F, 0x4D, 1, 0x62, 0, 0x82, 0x10, 0x11,
      0x40, 2, 0x00, 10, 0, 0, 0, 0x0F, 0x01, 0x82, 0x82, 0x10, 0x11,
        0x00, 10, 0, 0, 0, 0x0F, 0x01, 0x92, 0x82, 0x10, 0x11,
      0x10, 0x11] := by
  intro low high v
  have hv : v.CustomFree := by decide
  have hbools : (map .bool .bool [(bool true, bool true), (bool false, bool true)]).sortDeep {} =
      _ := sortDeep_pair (by decide)
  have hnumbers : (map (.int .i8) .bool [(high, bool true), (low, bool true)]).sortDeep {} = _ :=
    sortDeep_pair (by decide)
  have htexts : (map .text .bool [(text "b", bool true), (text "ab", bool true)]).sortDeep {} = _ :=
    sortDeep_pair (by decide)
  have hreferences : (map .pointer .bool
      [(pointer (bool false), bool true), (pointer (bool true), bool true)]).sortDeep {} = _ :=
    sortDeep_pair (by decide +kernel)
  refine ⟨hv, ((encode_sortDeep v hv {}).1 _).mpr ?_⟩
  rw [sortDeep, sortDeepAll_eq, List.map_cons, List.map_cons, List.map_cons, List.map_cons, hbools,
    hnumbers, htexts, hreferences]
  exact eq_ok_of_toOption (by decide +kernel)

end Value

end TaggedWire
