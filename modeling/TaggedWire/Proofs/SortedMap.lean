import TaggedWire.Proofs.Limit
import TaggedWire.Proofs.Sorting
import TaggedWire.Value.Sorted

namespace TaggedWire

open Layout

namespace Value

variable {o : Options} {d : Nat} {v : Value} {j k : Kind}
  {es : List (Value × Value)} {x : List UInt8}

theorem layout_zero_eq_sortedBytes (h : v.CustomFree) (ho : o.sortedMaps = true)
    (hx : v.layout o d = .ok x) : v.layout o 0 = .ok x ∧ v.sortedBytes o = x := by
  have hsorted : { o with sortedMaps := true } = o := by rw [← ho]
  have hzero : v.layout o 0 = .ok x := layout_eq_ok_of_le h (Nat.zero_le d) hx
  refine ⟨hzero, ?_⟩
  rw [sortedBytes, hsorted, hzero]
  rfl

def keyBytes (o : Options) (e : Value × Value) : List UInt8 := e.1.sortedBytes o

theorem tied_of_eq {a b : Value × Value} (h : a.1 = b.1) : Entry.Tied j (keyBytes o) a b := by
  unfold Entry.Tied keyBytes
  split <;> rw [h]

theorem keys_eq_ok (ho : o.sortedMaps = true) (h : ∀ a ∈ es, a.1.CustomFree)
    (hx : concat (es.map (entryLayout o d)) = .ok x) :
    ∀ a ∈ es, a.1.layout o d = .ok (keyBytes o a) := by
  intro a ha
  obtain ⟨y, hy⟩ := exists_ok_of_concat hx a ha
  obtain ⟨-, key, -, hkey, -⟩ := entryLayout_eq_ok.mp hy
  have hkey' := layout_eq_ok_of_le (h a ha) (Nat.le_succ d) hkey
  rw [hkey', keyBytes, (layout_zero_eq_sortedBytes (h a ha) ho hkey).2]

def LaidInOrder (o : Options) (d : Nat) (j k : Kind) (es : List (Value × Value)) (x : List UInt8) :
    Prop :=
  (∀ a ∈ es, a.1.kind = j ∧ a.2.kind = k) ∧ es.length < capacity 4 ∧
    ∃ rest, concat (es.map (entryLayout o d)) = .ok rest ∧
      Tag.object.asArray :: Base128.ofNat es.length ++ rest = x

theorem body_unsorted_map_eq_ok (ho : o.sortedMaps = false) (hes : es ≠ []) :
    (map j k es).body o d = .ok x ↔ LaidInOrder o d j k es x := by
  obtain ⟨e, es, rfl⟩ := List.exists_cons_of_ne_nil hes
  rw [body_map_cons_eq_ok, ho]
  simp [order, LaidInOrder]

theorem body_sorted_map_eq_ok (ho : o.sortedMaps = true) (hes : es ≠ [])
    (h : ∀ a ∈ es, a.1.CustomFree) :
    (map j k es).body o d = .ok x ↔ LaidInOrder o d j k (Entry.sort j Prod.fst (keyBytes o) es) x := by
  have hperm : (Entry.sort j Prod.fst (keyBytes o) es).Perm es := Entry.sort_perm
  -- The keys are encoded by themselves before any entry is written, one level further up, so that
  -- this cannot fail when the entries have a layout.
  have horder {arranged : List (Value × Value)} {rest : List UInt8} (hp : arranged.Perm es)
      (hrest : concat (arranged.map (entryLayout o d)) = .ok rest) :
      order true j Prod.fst (fun e ↦ e.1.layout o d) es = .ok (Entry.sort j Prod.fst (keyBytes o) es) := by
    have hkeys := keys_eq_ok ho (fun a ha ↦ h a (hp.mem_iff.mp ha)) hrest
    exact Entry.order_sorted fun a ha ↦ hkeys a (hp.mem_iff.mpr ha)
  simp only [LaidInOrder, hperm.mem_iff, hperm.length_eq]
  obtain ⟨e, es, rfl⟩ := List.exists_cons_of_ne_nil hes
  rw [body_map_cons_eq_ok, ho]
  refine and_congr_right fun _ ↦ and_congr_right fun _ ↦ ?_
  constructor
  · intro hlayout
    obtain ⟨arranged, rest, harranged, hrest, hx⟩ := hlayout
    have hsorted := horder (order_perm harranged) hrest
    rw [harranged] at hsorted
    cases hsorted
    exact ⟨rest, hrest, hx⟩
  · intro hlayout
    obtain ⟨rest, hrest, hx⟩ := hlayout
    exact ⟨_, rest, horder hperm hrest, hrest, hx⟩

def payload (o : Options) (e : Value × Value) : List UInt8 := e.1.sortedBytes o ++ e.2.sortedBytes o

def sortedMap (o : Options) (j : Kind) (es : List (Value × Value)) : List UInt8 :=
  Tag.object.asArray :: Base128.ofNat es.length ++
    (Entry.sort j Prod.fst (keyBytes o) es).flatMap fun a ↦ Frame.around (payload o a)

theorem entryLayout_eq_around (ho : o.sortedMaps = true) {a : Value × Value}
    (h : a.1.CustomFree ∧ a.2.CustomFree) (hx : ∃ x, entryLayout o d a = .ok x) :
    a.1.encode o = .ok (a.1.sortedBytes o) ∧ a.2.encode o = .ok (a.2.sortedBytes o) ∧
      Frame.size (payload o a) < capacity Frame.headerSize ∧
      entryLayout o d a = .ok (Frame.around (payload o a)) := by
  obtain ⟨x, hx⟩ := hx
  obtain ⟨-, y, z, hy, hz, hsize, hframe⟩ := entryLayout_eq_ok.mp hx
  obtain ⟨hkey, rfl⟩ := layout_zero_eq_sortedBytes h.1 ho hy
  obtain ⟨hvalue, rfl⟩ := layout_zero_eq_sortedBytes h.2 ho hz
  exact ⟨(encode_eq_ok h.1).mpr hkey, (encode_eq_ok h.2).mpr hvalue, hsize,
    hx.trans (hframe ▸ rfl)⟩

structure Writable (o : Options) (d : Nat) (j k : Kind) (es : List (Value × Value)) : Prop where
  kinds : ∀ a ∈ es, a.1.kind = j ∧ a.2.kind = k
  length : es.length < capacity 4
  laid : ∀ a ∈ es, ∃ x, entryLayout o d a = .ok x

theorem Writable.perm (h : Writable o d j k es) {fs : List (Value × Value)} (hp : es.Perm fs) :
    Writable o d j k fs where
  kinds a ha := h.kinds a (hp.mem_iff.mpr ha)
  length := hp.length_eq ▸ h.length
  laid a ha := h.laid a (hp.mem_iff.mpr ha)

theorem body_eq_sortedMap (ho : o.sortedMaps = true) (hes : es ≠ [])
    (h : (map j k es).CustomFree) :
    (map j k es).body o d = .ok x ↔ Writable o d j k es ∧ sortedMap o j es = x := by
  have hperm : (Entry.sort j Prod.fst (keyBytes o) es).Perm es := Entry.sort_perm
  have hconcat (hlaid : ∀ a ∈ es, ∃ x, entryLayout o d a = .ok x) :
      concat ((Entry.sort j Prod.fst (keyBytes o) es).map (entryLayout o d)) =
        .ok ((Entry.sort j Prod.fst (keyBytes o) es).flatMap fun a ↦ Frame.around (payload o a)) := by
    refine concat_eq_flatMap fun a ha ↦ ?_
    have hmem := hperm.mem_iff.mp ha
    exact (entryLayout_eq_around ho (h.map a hmem) (hlaid a hmem)).2.2.2
  rw [body_sorted_map_eq_ok ho hes fun a ha ↦ (h.map a ha).1]
  simp only [LaidInOrder, hperm.mem_iff, hperm.length_eq]
  constructor
  · intro hlayout
    obtain ⟨hkinds, hlength, rest, hrest, rfl⟩ := hlayout
    have hlaid : ∀ a ∈ es, ∃ x, entryLayout o d a = .ok x :=
      fun a ha ↦ exists_ok_of_concat hrest a (hperm.mem_iff.mpr ha)
    rw [hconcat hlaid] at hrest
    cases hrest
    exact ⟨⟨hkinds, hlength, hlaid⟩, rfl⟩
  · intro hlayout
    obtain ⟨hw, rfl⟩ := hlayout
    exact ⟨hw.kinds, hw.length, _, hconcat hw.laid, rfl⟩

theorem encode_eq_sortedMap (ho : o.sortedMaps = true) (hes : es ≠ [])
    (h : (map j k es).CustomFree) :
    (map j k es).encode o = .ok x ↔
      0 < o.maxDepth ∧ Writable o 1 j k es ∧ sortedMap o j es = x := by
  rw [encode_eq_ok h, layout_eq_ok, body_eq_sortedMap ho hes h]

theorem encode_map_of_isSome (ho : o.sortedMaps = true) (h : (map j k es).CustomFree) (hes : es ≠ [])
    (hdepth : 0 < o.maxDepth) (hkinds : ∀ a ∈ es, a.1.kind = j ∧ a.2.kind = k)
    (hlength : es.length < capacity 4) (hsome : ∀ a ∈ es, (entryLayout o 1 a).toOption.isSome) :
    (map j k es).encode o = .ok (sortedMap o j es) := by
  have hlaid (a) (ha : a ∈ es) : ∃ x, entryLayout o 1 a = .ok x := by
    obtain ⟨x, hx⟩ := Option.isSome_iff_exists.mp (hsome a ha)
    exact ⟨x, eq_ok_of_toOption hx⟩
  exact (encode_eq_sortedMap ho hes h).mpr ⟨hdepth, ⟨hkinds, hlength, hlaid⟩, rfl⟩

theorem sortedMap_eq_of_perm {fs : List (Value × Value)} (hp : es.Perm fs)
    (h : ∀ a ∈ es, ∀ b ∈ es, Entry.Tied j (keyBytes o) a b → payload o a = payload o b) :
    sortedMap o j es = sortedMap o j fs := by
  have hmap := Entry.map_sort_eq_of_perm hp h
  have hflat (gs : List (Value × Value)) : (gs.flatMap fun a ↦ Frame.around (payload o a)) =
      (gs.map (payload o)).flatMap Frame.around := by
    rw [List.flatMap_map]
  rw [sortedMap, sortedMap, hp.length_eq, hflat, hflat, hmap]

/-- The order in which the entries of a sorted map came shows only in entries that are tied. -/
theorem sortedMap_perm_iff (ho : o.sortedMaps = true) (h : (map j k es).CustomFree)
    (hw : Writable o d j k es) :
    (∀ fs, es.Perm fs → sortedMap o j fs = sortedMap o j es) ↔
      ∀ a ∈ es, ∀ b ∈ es, Entry.Tied j (keyBytes o) a b → payload o a = payload o b := by
  constructor
  · intro hall a ha b hb
    apply Entry.eq_of_map_sort _ ha hb
    intro fs hp
    have hfs : (Entry.sort j Prod.fst (keyBytes o) fs).Perm es := Entry.sort_perm.trans hp.symm
    have hes : (Entry.sort j Prod.fst (keyBytes o) es).Perm es := Entry.sort_perm
    have hsize (a) (ha : a ∈ es) := (entryLayout_eq_around ho (h.map a ha) (hw.laid a ha)).2.2.1
    have hbytes := hall fs hp
    rw [sortedMap, sortedMap, hp.length_eq, List.append_cancel_left_eq] at hbytes
    exact Frame.map_eq_of_flatMap_around (fun a ha ↦ hsize a (hfs.mem_iff.mp ha))
      (fun a ha ↦ hsize a (hes.mem_iff.mp ha)) (hfs.trans hes.symm).length_eq hbytes
  · intro hties fs hp
    exact (sortedMap_eq_of_perm hp hties).symm

end Value

end TaggedWire
