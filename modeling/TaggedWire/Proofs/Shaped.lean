import Mathlib.Data.List.Forall2
import TaggedWire.Proofs.Inside
import TaggedWire.Typed.Typing

namespace TaggedWire

theorem exists_mem_zip {α β : Type} {as : List α} {bs : List β} (h : as.length = bs.length) {a : α}
    (ha : a ∈ as) : ∃ b, (a, b) ∈ as.zip bs := by
  rw [← List.map_fst_zip (Nat.le_of_eq h)] at ha
  obtain ⟨p, hp, rfl⟩ := List.mem_map.mp ha
  exact ⟨p.2, hp⟩

theorem forall₂_zip_of_map_eq {α β γ : Type} {f : α → γ} {g : β → γ} {l : List α} {m : List β}
    (h : l.map f = m.map g) : List.Forall₂ (fun a b ↦ (a, b) ∈ l.zip m ∧ f a = g b) l m := by
  have hfg : List.Forall₂ (fun a b ↦ f a = g b) l m := by
    rw [← List.forall₂_map_right_iff (f := g), ← List.forall₂_map_left_iff (f := f),
      List.forall₂_eq_eq_eq]
    exact h
  obtain ⟨hlength, hzip⟩ := List.forall₂_iff_zip.mp hfg
  exact List.forall₂_iff_zip.mpr ⟨hlength, fun hp ↦ ⟨hp, hzip hp⟩⟩

theorem Shape.Occurs.trans {S : Schema} {r s t : Shape} (h : Occurs S r s) (h' : Occurs S s t) :
    Occurs S r t := by
  induction h' with
  | here => exact h
  | boxed _ ih => exact .boxed ih
  | option _ ih => exact .option ih
  | list _ ih => exact .list ih
  | orderedKey _ ih => exact .orderedKey ih
  | orderedValue _ ih => exact .orderedValue ih
  | hashedKey _ ih => exact .hashedKey ih
  | hashedValue _ ih => exact .hashedValue ih
  | field hs _ ih => exact .field hs ih

namespace Datum

theorem listToValue_eq (ds : List Datum) : listToValue ds = ds.map toValue := by
  induction ds with
  | nil => rfl
  | cons d ds ih => rw [listToValue, ih, List.map_cons]

def entryToValue (e : Datum × Datum) : Value × Value := (e.1.toValue, e.2.toValue)

theorem entriesToValue_eq (es : List (Datum × Datum)) :
    entriesToValue es = es.map entryToValue := by
  induction es with
  | nil => rfl
  | cons e es ih => rw [entriesToValue, ih, List.map_cons]; rfl

theorem settleAll_eq (ds : List Datum) : settleAll ds = ds.map settle := by
  induction ds with
  | nil => rfl
  | cons d ds ih => rw [settleAll, ih, List.map_cons]

def settleEntry (e : Datum × Datum) : Datum × Datum := (e.1.settle, e.2.settle)

theorem settleEntries_eq (es : List (Datum × Datum)) :
    settleEntries es = es.map settleEntry := by
  induction es with
  | nil => rfl
  | cons e es ih => rw [settleEntries, ih, List.map_cons]; rfl

variable {S : Schema} {s t k v : Shape} {d : Datum} {ds : List Datum} {es : List (Datum × Datum)}

theorem allHaveShape_iff : AllHaveShape S s ds ↔ ∀ d ∈ ds, d.HasShape S s := by
  induction ds with
  | nil => simp [AllHaveShape]
  | cons d ds ih => simp [AllHaveShape, ih]

theorem entriesHaveShape_iff :
    EntriesHaveShape S k v es ↔ ∀ e ∈ es, e.1.HasShape S k ∧ e.2.HasShape S v := by
  induction es with
  | nil => simp [EntriesHaveShape]
  | cons e es ih =>
    obtain ⟨a, b⟩ := e
    simp [EntriesHaveShape, ih, and_assoc]

theorem fieldsHaveShape_iff {ss : List Shape} :
    FieldsHaveShape S ds ss ↔ List.Forall₂ (HasShape S) ds ss := by
  induction ds generalizing ss with
  | nil => cases ss <;> simp [FieldsHaveShape]
  | cons d ds ih => cases ss <;> simp [FieldsHaveShape, ih]

theorem exists_shape_of_mem {ss : List Shape} (hds : List.Forall₂ (HasShape S) ds ss) (hd : d ∈ ds) :
    ∃ s ∈ ss, d.HasShape S s := by
  induction hds with
  | nil => cases hd
  | @cons e s ds ss he hds ih =>
    rcases List.mem_cons.mp hd with rfl | hd
    · exact ⟨s, List.mem_cons_self, he⟩
    · obtain ⟨t, ht, hdt⟩ := ih hd
      exact ⟨t, List.mem_cons_of_mem s ht, hdt⟩

theorem forall₂_of_shapes {es : List Datum} {ss : List Shape}
    (hds : List.Forall₂ (HasShape S) ds ss) (hes : List.Forall₂ (HasShape S) es ss) :
    List.Forall₂ (fun d e ↦ d ∈ ds ∧ ∃ s ∈ ss, d.HasShape S s ∧ e.HasShape S s) ds es := by
  induction hds generalizing es with
  | nil =>
    cases hes
    exact .nil
  | @cons d s ds ss hd hds ih =>
    cases hes with
    | cons he hes =>
      refine .cons ⟨List.mem_cons_self, s, List.mem_cons_self, hd, he⟩ ((ih hes).imp ?_)
      intro a b hparts
      obtain ⟨ha, t, ht, hab⟩ := hparts
      exact ⟨List.mem_cons_of_mem d ha, t, List.mem_cons_of_mem s ht, hab⟩

structure Entries (S : Schema) (k v : Shape) (es : List (Datum × Datum)) : Prop where
  isKey : ∀ _ ∈ es, k.IsKey S
  keys : ∀ e ∈ es, e.1.HasShape S k
  values : ∀ e ∈ es, e.2.HasShape S v

theorem hasShape_list {elem : Shape} :
    (list elem ds).HasShape S (.list s) ↔ elem = s ∧ ∀ d ∈ ds, d.HasShape S s := by
  rw [HasShape, allHaveShape_iff]

theorem entries_iff : Entries S k v es ↔
    (es ≠ [] → k.IsKey S) ∧ ∀ e ∈ es, e.1.HasShape S k ∧ e.2.HasShape S v := by
  constructor
  · intro h
    refine ⟨fun hes ↦ ?_, fun e he ↦ ⟨h.keys e he, h.values e he⟩⟩
    obtain ⟨e, he⟩ := List.exists_mem_of_ne_nil es hes
    exact h.isKey e he
  · rintro ⟨hkey, hes⟩
    exact ⟨fun e he ↦ hkey (List.ne_nil_of_mem he), fun e he ↦ (hes e he).1,
      fun e he ↦ (hes e he).2⟩

theorem hasShape_orderedMap {key value : Shape} :
    (orderedMap key value es).HasShape S (.orderedMap k v) ↔
      key = k ∧ value = v ∧ Entries S k v es ∧
        es.Pairwise fun a b ↦ a.1.compare b.1 = .lt := by
  rw [HasShape, entriesHaveShape_iff, entries_iff, and_assoc]

theorem hasShape_hashedMap {key value : Shape} :
    (hashedMap key value es).HasShape S (.hashedMap k v) ↔
      key = k ∧ value = v ∧ Entries S k v es ∧
        es.Pairwise fun a b ↦ a.1.compare b.1 ≠ .eq := by
  rw [HasShape, entriesHaveShape_iff, entries_iff, and_assoc]

theorem hasShape_record {m n : String} :
    (record m ds).HasShape S (.record n) ↔ m = n ∧ List.Forall₂ (HasShape S) ds (S n) := by
  rw [HasShape, fieldsHaveShape_iff]

/-- What passes from the parts of a datum to the datum holds of all data of all shapes. -/
@[elab_as_elim]
theorem HasShape.by_parts {motive : (d : Datum) → (s : Shape) → d.HasShape S s → Prop}
    (bool : ∀ b h, motive (.bool b) .bool h) (int : ∀ n k h, motive (.int n) (.int k) h)
    (float : ∀ x k h, motive (.float x) (.float k) h) (text : ∀ t h, motive (.text t) .text h)
    (bytes : ∀ bs h, motive (.bytes bs) .bytes h) (object : ∀ o h, motive (.object o) .object h)
    (boxed : ∀ d s h, (∀ h, motive d s h) → motive (.boxed d) (.boxed s) h)
    (none : ∀ s h, motive .none (.option s) h)
    (some : ∀ d s h, (∀ h, motive d s h) → motive (.some d) (.option s) h)
    (list : ∀ ds s h, (∀ d ∈ ds, ∀ h, motive d s h) → motive (.list s ds) (.list s) h)
    (orderedMap : ∀ es k v h,
      (∀ e ∈ es, (∀ h, motive e.1 k h) ∧ ∀ h, motive e.2 v h) →
        motive (.orderedMap k v es) (.orderedMap k v) h)
    (hashedMap : ∀ es k v h,
      (∀ e ∈ es, (∀ h, motive e.1 k h) ∧ ∀ h, motive e.2 v h) →
        motive (.hashedMap k v es) (.hashedMap k v) h)
    (record : ∀ n ds h, (∀ d ∈ ds, ∀ s h, motive d s h) → motive (.record n ds) (.record n) h)
    (d : Datum) (s : Shape) (h : d.HasShape S s) : motive d s h := by
  induction hn : sizeOf d using Nat.strongRecOn generalizing d s with
  | _ n ih =>
    have part (e : Datum) (t : Shape) (he : sizeOf e < n) (h : e.HasShape S t) : motive e t h :=
      ih _ he e t h rfl
    subst hn
    match d, s, h with
    | .bool b, .bool, h => exact bool b h
    | .int n, .int k, h => exact int n k h
    | .float x, .float k, h => exact float x k h
    | .text t, .text, h => exact text t h
    | .bytes bs, .bytes, h => exact bytes bs h
    | .object o, .object, h => exact object o h
    | .boxed d, .boxed s, h => exact boxed d s h (part d s (by simp))
    | .none, .option s, h => exact none s h
    | .some d, .option s, h => exact some d s h (part d s (by simp))
    | .list elem ds, .list s, h =>
      obtain ⟨rfl, -⟩ := hasShape_list.mp h
      refine list ds elem h fun d hd ↦ part d elem ?_
      have hlt := List.sizeOf_lt_of_mem hd
      simp
      omega
    | .orderedMap key value es, .orderedMap k v, h =>
      obtain ⟨rfl, rfl, -⟩ := hasShape_orderedMap.mp h
      refine orderedMap es key value h fun e he ↦ ⟨part e.1 key ?_, part e.2 value ?_⟩
      all_goals
        have hlt := sizeOf_lt_of_mem he
        simp
        omega
    | .hashedMap key value es, .hashedMap k v, h =>
      obtain ⟨rfl, rfl, -⟩ := hasShape_hashedMap.mp h
      refine hashedMap es key value h fun e he ↦ ⟨part e.1 key ?_, part e.2 value ?_⟩
      all_goals
        have hlt := sizeOf_lt_of_mem he
        simp
        omega
    | .record m ds, .record n, h =>
      obtain ⟨rfl, -⟩ := hasShape_record.mp h
      refine record m ds h fun d hd s ↦ part d s ?_
      have hlt := List.sizeOf_lt_of_mem hd
      simp
      omega

theorem Entries.eq_of_entriesToValue {fs : List (Datum × Datum)} (hfs : Entries S k v fs)
    (hes : ∀ a ∈ es, (∀ e : Datum, e.HasShape S k → a.1.toValue = e.toValue → a.1 = e) ∧
      ∀ e : Datum, e.HasShape S v → a.2.toValue = e.toValue → a.2 = e)
    (h : entriesToValue es = entriesToValue fs) : es = fs := by
  rw [entriesToValue_eq, entriesToValue_eq] at h
  rw [← List.forall₂_eq_eq_eq]
  refine (forall₂_zip_of_map_eq h).imp fun a b hab ↦ ?_
  obtain ⟨hzip, hvalue⟩ := hab
  obtain ⟨ha, hb⟩ := List.of_mem_zip hzip
  obtain ⟨h1, h2⟩ := Prod.ext_iff.mp hvalue
  exact Prod.ext ((hes a ha).1 b.1 (hfs.keys b hb) h1) ((hes a ha).2 b.2 (hfs.values b hb) h2)

theorem eq_of_toValue {e : Datum} (hd : d.HasShape S t) (he : e.HasShape S t)
    (h : d.toValue = e.toValue) : d = e := by
  induction d, t, hd using HasShape.by_parts generalizing e with
  | bool b _ | int n k _ | float x k _ | text u _ | bytes bs _ | object o _ | none s _ =>
    cases e <;> simp_all [HasShape, toValue]
  | boxed d s hd ih =>
    cases e with
    | boxed e => exact congrArg boxed (ih hd he h)
    | _ => simp [HasShape] at he
  | some d s hd ih =>
    cases e with
    | some e => exact congrArg some (ih hd he (Value.pointer.inj h))
    | none => cases h
    | _ => simp [HasShape] at he
  | list ds s hd ih =>
    cases e with
    | list elem es =>
      obtain ⟨-, hds⟩ := hasShape_list.mp hd
      obtain ⟨rfl, hes⟩ := hasShape_list.mp he
      rw [toValue, toValue, Value.array.injEq, listToValue_eq, listToValue_eq] at h
      congr 1
      rw [← List.forall₂_eq_eq_eq]
      refine (forall₂_zip_of_map_eq h.2).imp fun a b hab ↦ ?_
      obtain ⟨ha, hb⟩ := List.of_mem_zip hab.1
      exact ih a ha (hds a ha) (hes b hb) hab.2
    | _ => simp [HasShape] at he
  | orderedMap es k v hd ih =>
    cases e with
    | orderedMap key value fs =>
      obtain ⟨-, -, hes, -⟩ := hasShape_orderedMap.mp hd
      obtain ⟨rfl, rfl, hfs, -⟩ := hasShape_orderedMap.mp he
      have hentries := hfs.eq_of_entriesToValue (fun a ha ↦
        ⟨fun e ↦ (ih a ha).1 (hes.keys a ha), fun e ↦ (ih a ha).2 (hes.values a ha)⟩)
        (Value.map.inj h).2.2
      exact congrArg (orderedMap key value) hentries
    | _ => simp [HasShape] at he
  | hashedMap es k v hd ih =>
    cases e with
    | hashedMap key value fs =>
      obtain ⟨-, -, hes, -⟩ := hasShape_hashedMap.mp hd
      obtain ⟨rfl, rfl, hfs, -⟩ := hasShape_hashedMap.mp he
      have hentries := hfs.eq_of_entriesToValue (fun a ha ↦
        ⟨fun e ↦ (ih a ha).1 (hes.keys a ha), fun e ↦ (ih a ha).2 (hes.values a ha)⟩)
        (Value.map.inj h).2.2
      exact congrArg (hashedMap key value) hentries
    | _ => simp [HasShape] at he
  | record n ds hd ih =>
    cases e with
    | record m es =>
      obtain ⟨-, hds⟩ := hasShape_record.mp hd
      obtain ⟨rfl, hes⟩ := hasShape_record.mp he
      rw [toValue, toValue, Value.object.injEq, Object.plain.injEq, listToValue_eq,
        listToValue_eq] at h
      congr 1
      rw [← List.forall₂_eq_eq_eq]
      refine (forall₂_zip_of_map_eq h).imp fun a b hab ↦ ?_
      obtain ⟨ha, s, -, has, hbs⟩ := List.forall₂_zip (forall₂_of_shapes hds hes) hab.1
      exact ih a ha s has hbs hab.2
    | _ => simp [HasShape] at he

theorem HasShape.ofShape (hd : d.HasShape S t) : d.OfShape S t := by
  induction d, t, hd using HasShape.by_parts with
  | bool | text | bytes | object | none => constructor
  | int n k h =>
    obtain rfl : n.kind = k := h
    exact .int
  | float x k h =>
    obtain rfl : x.kind = k := h
    exact .float
  | boxed d s h ih => exact .boxed (ih h)
  | some d s h ih => exact .some (ih h)
  | list ds s h ih =>
    obtain ⟨-, hds⟩ := hasShape_list.mp h
    exact .list fun d hd ↦ ih d hd (hds d hd)
  | orderedMap es k v h ih =>
    obtain ⟨-, -, hes, -⟩ := hasShape_orderedMap.mp h
    exact .orderedMap (fun e he ↦ (ih e he).1 (hes.keys e he))
      fun e he ↦ (ih e he).2 (hes.values e he)
  | hashedMap es k v h ih =>
    obtain ⟨-, -, hes, -⟩ := hasShape_hashedMap.mp h
    exact .hashedMap (fun e he ↦ (ih e he).1 (hes.keys e he))
      fun e he ↦ (ih e he).2 (hes.values e he)
  | record n ds h ih =>
    obtain ⟨-, hds⟩ := hasShape_record.mp h
    obtain ⟨hlength, hzip⟩ := List.forall₂_iff_zip.mp hds
    exact .record hlength fun p hp ↦ ih p.1 (List.of_mem_zip hp).1 p.2 (hzip hp)

/-- What holds of the values of all data of the shapes that occur in `t` holds of every value inside
a value of such a shape. -/
theorem OfShape.everywhere {P : Value → Prop} (hd : d.OfShape S s) (hs : Shape.Occurs S s t)
    (ht : ¬ Shape.Occurs S .object t)
    (hP : ∀ (e : Datum) (u : Shape), Shape.Occurs S u t → e.OfShape S u → P e.toValue) :
    Value.Everywhere P d.toValue := by
  induction hd with
  | bool | int | float | text | bytes | none =>
    exact (Value.everywhere_leaf rfl).mpr (hP _ _ hs (by constructor))
  | object => exact absurd hs ht
  | boxed _ ih => exact ih (.trans (.boxed .here) hs)
  | some hd ih =>
    exact Value.everywhere_pointer.mpr ⟨hP _ _ hs hd.some, ih (.trans (.option .here) hs)⟩
  | list hds ih =>
    have hself := hP _ _ hs (.list hds)
    rw [toValue, listToValue_eq] at hself ⊢
    rw [Value.everywhere_array, List.forall_mem_map]
    exact ⟨hself, fun d hd ↦ ih d hd (.trans (.list .here) hs)⟩
  | orderedMap hk hv ihk ihv =>
    have hself := hP _ _ hs (.orderedMap hk hv)
    rw [toValue, entriesToValue_eq] at hself ⊢
    rw [Value.everywhere_map, List.forall_mem_map]
    exact ⟨hself, fun e he ↦
      ⟨ihk e he (.trans (.orderedKey .here) hs), ihv e he (.trans (.orderedValue .here) hs)⟩⟩
  | hashedMap hk hv ihk ihv =>
    have hself := hP _ _ hs (.hashedMap hk hv)
    rw [toValue, entriesToValue_eq] at hself ⊢
    rw [Value.everywhere_map, List.forall_mem_map]
    exact ⟨hself, fun e he ↦
      ⟨ihk e he (.trans (.hashedKey .here) hs), ihv e he (.trans (.hashedValue .here) hs)⟩⟩
  | @record n ds hlength hds ih =>
    have hself := hP _ _ hs (.record hlength hds)
    rw [toValue, listToValue_eq] at hself ⊢
    rw [Value.everywhere_plain, List.forall_mem_map]
    refine ⟨hself, fun d hd ↦ ?_⟩
    obtain ⟨u, hp⟩ := exists_mem_zip hlength hd
    exact ih (d, u) hp (.trans (.field (List.of_mem_zip hp).2 .here) hs)

theorem OfShape.isCustom_toValue (hd : d.OfShape S t) (ht : ¬ Shape.Occurs S .object t) :
    d.toValue.object?.any Object.isCustom = false := by
  induction hd with
  | object => exact absurd .here ht
  | boxed _ ih => exact ih fun hs ↦ ht (.boxed hs)
  | _ => rfl

theorem OfShape.customFree (hd : d.OfShape S t) (ht : ¬ Shape.Occurs S .object t) :
    d.toValue.CustomFree :=
  Value.customFree_iff.mpr (hd.everywhere .here ht fun _ _ hu he ↦
    he.isCustom_toValue fun hobject ↦ ht (hobject.trans hu))

theorem toValue_customFree (ht : ¬ Shape.Occurs S .object t) (hd : d.HasShape S t) :
    d.toValue.CustomFree :=
  hd.ofShape.customFree ht

end Datum

end TaggedWire
