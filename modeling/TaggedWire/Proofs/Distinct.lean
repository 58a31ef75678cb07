import TaggedWire.Proofs.Insertion
import TaggedWire.Proofs.KeyOrder

namespace TaggedWire

namespace Datum

variable {S : Schema} {k v s t : Shape} {d e : Datum} {es : List (Datum × Datum)}

theorem OfShape.toValue_ne_float (hd : d.OfShape S s)
    (hs : ∀ j, ¬ Shape.Occurs S (.float j) s) (x : FloatBits) : d.toValue ≠ .float x := by
  induction hd with
  | float => exact absurd .here (hs _)
  | boxed _ ih => exact ih fun j hj ↦ hs j (.boxed hj)
  | _ => nofun

theorem OfShape.floatFree (hd : d.OfShape S t) (ht : ¬ Shape.Occurs S .object t)
    (hs : ∀ j, ¬ Shape.Occurs S (.float j) t) : d.toValue.FloatFree :=
  hd.everywhere .here ht fun _ _ hu he ↦ he.toValue_ne_float fun j hj ↦ hs j (hj.trans hu)

theorem toValue_same_iff (hk : k.IsKey S) (hd : d.HasShape S k) (he : e.HasShape S k) :
    d.toValue.same e.toValue ↔ d = e := by
  have hfree {d : Datum} (hd : d.HasShape S k) : d.toValue.FloatFree :=
    hd.ofShape.floatFree (hk _) fun _ ↦ hk _
  rw [(hfree hd).same_iff (hfree he)]
  exact ⟨eq_of_toValue hd he, congrArg toValue⟩

theorem apart_entriesToValue (hk : k.IsKey S) (hkeys : ∀ e ∈ es, e.1.HasShape S k)
    (hne : es.Pairwise fun a b ↦ a.1.compare b.1 ≠ .eq) : Table.Apart (entriesToValue es) := by
  rw [entriesToValue_eq, Table.Apart, List.pairwise_map]
  refine hne.imp_of_mem fun {a b} ha hb hab ↦ ?_
  have hkey : a.1 ≠ b.1 := ne_of_compare_ne_eq hk (hkeys a ha) hab
  have hvalue : ¬ a.1.toValue.same b.1.toValue :=
    mt (toValue_same_iff hk (hkeys a ha) (hkeys b hb)).mp hkey
  exact Bool.eq_false_iff.mpr hvalue

/-- The conversion of a map looks for no key and yet makes the table that insertion makes of the
converted entries, in the order in which they are visited. Of a hashed map that may be any order; in
an ordered map the keys increase. No two keys become equal, so no entry is lost. -/
theorem map_toValue_eq_ofList (hk : k.IsKey S) (hkeys : ∀ e ∈ es, e.1.HasShape S k)
    (hne : es.Pairwise fun a b ↦ a.1.compare b.1 ≠ .eq) :
    let t := Table.ofList k.kind v.kind (entriesToValue es)
    (orderedMap k v es).toValue = t.toValue ∧ (hashedMap k v es).toValue = t.toValue ∧
      t.keyKind = k.kind ∧ t.valueKind = v.kind ∧ t.entries = entriesToValue es ∧
      Table.Apart t.entries ∧ t.entries.length = es.length := by
  intro t
  have hapart := apart_entriesToValue hk hkeys hne
  have ht : t = ⟨k.kind, v.kind, entriesToValue es⟩ := Table.insertAll_eq_append ⟨_, _, []⟩ hapart
  have hlength : (entriesToValue es).length = es.length := by
    rw [entriesToValue_eq, List.length_map]
  rw [ht]
  exact ⟨rfl, rfl, rfl, rfl, rfl, hapart, hlength⟩

/-- Optional maps as keys, with values that equal nothing. -/
theorem optional_maps_insert :
    let S : Schema := fun _ ↦ []
    let k := Shape.option (.orderedMap .bytes .bool)
    let nan := float (.f64 0x7FF8000000000000)
    let es : List (Datum × Datum) :=
      [(some (orderedMap .bytes .bool [(bytes [1], bool true)]), nan), (none, nan),
        (some (orderedMap .bytes .bool []), nan)]
    k.IsKey S ∧ (∀ e ∈ es, e.1.HasShape S k) ∧
      es.Pairwise (fun a b ↦ a.1.compare b.1 ≠ .eq) ∧
      (hashedMap k (.float .f64) es).toValue =
        (Table.ofList .pointer (.float .f64) (entriesToValue es)).toValue := by
  intro S k nan es
  have hbytes : Shape.bytes.IsKey S := by
    intro t ht
    cases ht
    trivial
  have hk : k.IsKey S := by
    intro t ht
    dsimp only [k] at ht
    cases ht with
    | here => trivial
    | option ht =>
      cases ht with
      | here => trivial
      | orderedKey ht | orderedValue ht =>
        cases ht
        trivial
  have hkeys : ∀ e ∈ es, e.1.HasShape S k := by
    simp [es, k, HasShape, hbytes, EntriesHaveShape]
  have hne : es.Pairwise fun a b ↦ a.1.compare b.1 ≠ .eq := by
    simp [es, compare, compareEntries]
  exact ⟨hk, hkeys, hne, (map_toValue_eq_ofList hk hkeys hne).2.1⟩

end Datum

end TaggedWire
