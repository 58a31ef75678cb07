import Mathlib.Data.List.Pairwise
import TaggedWire.Proofs.Alike
import TaggedWire.Proofs.Equality
import TaggedWire.Value.Table

namespace TaggedWire

namespace Value

variable {j k : Kind} {l m : List (Value × Value)} {o : Options} {bs : List UInt8}

theorem same_self_of_hasNaturalOrder {v : Value} (h : v.kind.hasNaturalOrder) : v.same v := by
  cases v <;> simp_all [kind, Kind.hasNaturalOrder, same, agrees]

section Perm

variable (ho : o.sortedMaps = true) (h : (map j k l).CustomFree) (hp : l.Perm m)

include ho h hp

theorem encode_map_of_perm (hl : l ≠ []) (hbs : (map j k l).encode o = .ok bs) :
    (map j k m).encode o = .ok (sortedMap o j m) := by
  obtain ⟨hdepth, hw, -⟩ := (encode_eq_sortedMap ho hl h).mp hbs
  have hm : (map j k m).CustomFree := customFree_map.mpr fun a ha ↦ h.map a (hp.mem_iff.mpr ha)
  have hne : m ≠ [] := fun hnil ↦ hl (List.perm_nil.mp (hnil ▸ hp))
  exact (encode_eq_sortedMap ho hne hm).mpr ⟨hdepth, hw.perm hp, rfl⟩

theorem exists_encode_map_of_perm (hencodes : ∃ bs, (map j k l).encode o = .ok bs) :
    ∃ bs, (map j k m).encode o = .ok bs := by
  obtain ⟨bs, hbs⟩ := hencodes
  rcases eq_or_ne l [] with rfl | hl
  · exact ⟨bs, by rwa [List.nil_perm.mp hp]⟩
  · exact ⟨_, encode_map_of_perm ho h hp hl hbs⟩

end Perm

theorem encode_map_perm_iff (ho : o.sortedMaps = true) (h : (map j k l).CustomFree)
    (hj : ¬ j.hasNaturalOrder) (hbs : (map j k l).encode o = .ok bs) :
    (∀ m, l.Perm m → (map j k m).encode o = .ok bs) ↔
      ∀ a ∈ l, ∀ b ∈ l, a.1.encode o = b.1.encode o → a.2.encode o = b.2.encode o := by
  rcases eq_or_ne l [] with rfl | hl
  · simp_all [List.nil_perm]
  obtain ⟨-, hw, rfl⟩ := (encode_eq_sortedMap ho hl h).mp hbs
  have hall : (∀ m, l.Perm m → (map j k m).encode o = .ok (sortedMap o j l)) ↔
      ∀ m, l.Perm m → sortedMap o j m = sortedMap o j l := by
    refine forall_congr' fun m ↦ forall_congr' fun hp ↦ ?_
    rw [encode_map_of_perm ho h hp hl hbs, Except.ok.injEq]
  have hentry (a) (ha : a ∈ l) := entryLayout_eq_around ho (h.map a ha) (hw.laid a ha)
  rw [hall, sortedMap_perm_iff ho h hw]
  refine forall₂_congr fun a ha ↦ forall₂_congr fun b hb ↦ ?_
  rw [(hentry a ha).1, (hentry b hb).1, (hentry a ha).2.1, (hentry b hb).2.1, Except.ok.injEq,
    Except.ok.injEq, Entry.Tied, if_neg hj]
  refine forall_congr' fun hkey ↦ ?_
  have hkey' : a.1.sortedBytes o = b.1.sortedBytes o := hkey
  rw [payload, payload, hkey', List.append_cancel_left_eq]

end Value

namespace Table

variable {j k : Kind} {l m : List (Value × Value)}

def Differ (a b : Value × Value) : Prop := a.1.same b.1 = false

instance : Std.Symm Differ := ⟨fun a b h ↦ (Value.same_comm b.1 a.1).trans h⟩

def Apart (l : List (Value × Value)) : Prop := l.Pairwise Differ

theorem Apart.perm (h : Apart l) (hp : l.Perm m) : Apart m :=
  List.Pairwise.perm h hp fun hab ↦ symm hab

theorem put_eq_append {es : List (Value × Value)} {key value : Value}
    (h : ∀ e ∈ es, e.1.same key = false) : put key value es = es ++ [(key, value)] := by
  induction es with
  | nil => rfl
  | cons e es ih =>
    rw [List.forall_mem_cons] at h
    simp [put, h.1, ih h.2]

theorem insertAll_eq_append (t : Table) (h : Apart (t.entries ++ l)) :
    t.insertAll l = { t with entries := t.entries ++ l } := by
  induction l generalizing t with
  | nil => simp [insertAll]
  | cons a l ih =>
    have hput : put a.1 a.2 t.entries = t.entries ++ [a] :=
      put_eq_append fun e he ↦ (List.pairwise_append.mp h).2.2 e he a List.mem_cons_self
    have hrest := ih (t.insert a.1 a.2) (by simpa [insert, hput] using h)
    simpa [insertAll, insert, hput] using hrest

def ofList (j k : Kind) (l : List (Value × Value)) : Table := (Table.mk j k []).insertAll l

theorem toValue_ofList (h : Apart l) : (ofList j k l).toValue = .map j k l := by
  rw [ofList, insertAll_eq_append ⟨j, k, []⟩ h]
  rfl

theorem Apart.eq_of_same (h : Apart l) {a b : Value × Value} (ha : a ∈ l) (hb : b ∈ l)
    (hab : a.1.same b.1) : a = b := by
  by_contra hne
  have hfalse : a.1.same b.1 = false := List.Pairwise.forall h ha hb hne
  rw [hab] at hfalse
  cases hfalse

theorem Apart.eq_of_tied (h : Apart l) {o : Options} (hj : j.hasNaturalOrder)
    (hkinds : ∀ a ∈ l, a.1.kind = j ∧ a.2.kind = k) {a b : Value × Value} (ha : a ∈ l) (hb : b ∈ l)
    (hab : Entry.Tied j (Value.keyBytes o) a b) : a = b := by
  rw [Entry.Tied, if_pos hj] at hab
  have ha' := (hkinds a ha).1
  have hb' := (hkinds b hb).1
  have hnatural : a.1.kind.hasNaturalOrder := ha' ▸ hj
  have hkey : a.1 = b.1 := Value.eq_of_rank (ha'.trans hb'.symm) hnatural hab
  exact h.eq_of_same ha hb (hkey ▸ Value.same_self_of_hasNaturalOrder hnatural)

/-- A sorted map has a form in every order in which its entries can be inserted, or in none. The
form is always the same when the keys sort by what they hold. When they sort by their encodings it
is always the same exactly if entries whose keys have one encoding have values of one encoding. -/
theorem encode_ofList_perm (j k : Kind) (l : List (Value × Value)) (hl : Apart l)
    (hfree : ∀ a ∈ l, a.1.CustomFree ∧ a.2.CustomFree) (o : Options) (ho : o.sortedMaps = true) :
    (∀ m, l.Perm m → ((∃ bs, (ofList j k m).toValue.encode o = .ok bs) ↔
      ∃ bs, (ofList j k l).toValue.encode o = .ok bs)) ∧
    (j.hasNaturalOrder → ∀ m, l.Perm m → ∀ bs, (ofList j k m).toValue.encode o = .ok bs ↔
      (ofList j k l).toValue.encode o = .ok bs) ∧
    (¬ j.hasNaturalOrder → ∀ bs, (ofList j k l).toValue.encode o = .ok bs →
      ((∀ m, l.Perm m → (ofList j k m).toValue.encode o = .ok bs) ↔
        ∀ a ∈ l, ∀ b ∈ l, a.1.encode o = b.1.encode o → a.2.encode o = b.2.encode o)) := by
  have hmap (m) (hp : l.Perm m) : (Value.map j k m).CustomFree :=
    Value.customFree_map.mpr fun a ha ↦ hfree a (hp.mem_iff.mpr ha)
  have hvalue (m) (hp : l.Perm m) : (ofList j k m).toValue = .map j k m := toValue_ofList (hl.perm hp)
  refine ⟨?_, ?_, ?_⟩
  · intro m hp
    rw [hvalue m hp, hvalue l .rfl]
    exact ⟨Value.exists_encode_map_of_perm ho (hmap m hp) hp.symm,
      Value.exists_encode_map_of_perm ho (hmap l .rfl) hp⟩
  · intro hj m hp bs
    rw [hvalue m hp, hvalue l .rfl, Value.encode_eq_ok (hmap m hp), Value.encode_eq_ok (hmap l .rfl)]
    refine ((Value.Alike.map_of_perm ho (hmap l .rfl) hp ?_).layout 0 bs).symm
    intro d hw a ha b hb hab
    rw [hl.eq_of_tied hj hw.kinds ha hb hab]
  · intro hj bs hbs
    rw [hvalue l .rfl] at hbs
    rw [← Value.encode_map_perm_iff ho (hmap l .rfl) hj hbs]
    exact forall₂_congr fun m hp ↦ by rw [hvalue m hp]

/-- References have no order but that of their encodings, which tells these two apart. -/
theorem references_encode_alike :
    let o : Options := { sortedMaps := true }
    let l := [(.nil, .bool true), (.pointer (.bool true), .bool false)]
    Apart l ∧ (∀ a ∈ l, a.1.CustomFree ∧ a.2.CustomFree) ∧
      ∃ bs, ∀ m, l.Perm m → (ofList .pointer .bool m).toValue.encode o = .ok bs := by
  intro o l
  have hapart : Apart l := by simp [Apart, Differ, l, Value.same, Value.agrees]
  have hfree : ∀ a ∈ l, a.1.CustomFree ∧ a.2.CustomFree := by decide
  have hl : (ofList .pointer .bool l).toValue.encode o = .ok (Value.sortedMap o .pointer l) := by
    rw [toValue_ofList hapart]
    exact Value.encode_map_of_isSome rfl (Value.customFree_map.mpr hfree) (List.cons_ne_nil _ _)
      (by decide) (by simp [l, Value.kind]) (by decide) (by decide +kernel)
  have hne : Value.nil.encode o ≠ (Value.pointer (.bool true)).encode o := by
    intro heq
    have hbytes : (Except.ok [0x81] : Except Failure (List UInt8)) = .ok [0x01, 0x82] := heq
    cases hbytes
  refine ⟨hapart, hfree, _, ((encode_ofList_perm .pointer .bool l hapart hfree o rfl).2.2
    (by decide) _ hl).mpr ?_⟩
  simp [l, hne, hne.symm]

/-- A byte string and the array of its bytes are unequal keys with one encoding, which leaves them
in the order in which they came. -/
theorem bytes_key_ties_array_key :
    let o : Options := { sortedMaps := true }
    let l := [(.bytes [1], .bool true), (.array (.int .u8) [.ofByte 1], .bool false)]
    Apart l ∧ (∀ a ∈ l, a.1.kind = .array ∧ a.2.kind = .bool) ∧
      (∀ a ∈ l, a.1.CustomFree ∧ a.2.CustomFree) ∧
      (ofList .array .bool l).toValue.encode o = .ok
        [0x40, 0x02, 0x00, 0x0B, 0, 0, 0, 0x0F, 0x01, 0x04, 0x01, 0x82, 0x10, 0x11,
          0x00, 0x0B, 0, 0, 0, 0x0F, 0x01, 0x04, 0x01, 0x92, 0x10, 0x11] ∧
      (ofList .array .bool l.reverse).toValue.encode o = .ok
        [0x40, 0x02, 0x00, 0x0B, 0, 0, 0, 0x0F, 0x01, 0x04, 0x01, 0x92, 0x10, 0x11,
          0x00, 0x0B, 0, 0, 0, 0x0F, 0x01, 0x04, 0x01, 0x82, 0x10, 0x11] := by
  intro o l
  have hapart : Apart l := by simp [Apart, Differ, l, Value.same, Value.agrees]
  have hkinds : ∀ a ∈ l, a.1.kind = .array ∧ a.2.kind = .bool := by simp [l, Value.kind]
  have hfree : ∀ a ∈ l, a.1.CustomFree ∧ a.2.CustomFree := by decide
  have hmap : (Value.map .array .bool l).CustomFree := Value.customFree_map.mpr hfree
  have hbytes : ∀ a ∈ l, Value.keyBytes o a = [0x01, 0x04, 0x01] := by decide +kernel
  have hl : (Value.map .array .bool l).encode o = .ok (Value.sortedMap o .array l) :=
    Value.encode_map_of_isSome rfl hmap (List.cons_ne_nil _ _) (by decide) hkinds (by decide)
      (by decide +kernel)
  have hencode (m) (hp : l.Perm m) : (ofList .array .bool m).toValue.encode o =
      .ok (Tag.object.asArray :: Base128.ofNat m.length ++
        m.flatMap fun a ↦ Frame.around (Value.payload o a)) := by
    have htied : ∀ a ∈ m, ∀ b ∈ m, Entry.Tied .array (Value.keyBytes o) a b := fun a ha b hb ↦
      (hbytes a (hp.mem_iff.mpr ha)).trans (hbytes b (hp.mem_iff.mpr hb)).symm
    rw [toValue_ofList (hapart.perm hp),
      Value.encode_map_of_perm rfl hmap hp (List.cons_ne_nil _ _) hl, Value.sortedMap,
      Entry.sort_of_tied htied]
  refine ⟨hapart, hkinds, hfree, ?_, ?_⟩
  · exact (hencode l .rfl).trans (congrArg Except.ok (by decide +kernel))
  · exact (hencode l.reverse l.reverse_perm.symm).trans (congrArg Except.ok (by decide +kernel))

end Table

end TaggedWire
