import Mathlib.Data.List.Perm.Basic
import TaggedWire.Proofs.KeyOrder
import TaggedWire.Proofs.Linear
import TaggedWire.Proofs.Refinement

namespace TaggedWire

open Layout

theorem exists_map_eq_of_perm {α β : Type} {f : α → β} {l : List β} {as : List α}
    (h : l.Perm (as.map f)) : ∃ bs : List α, bs.Perm as ∧ bs.map f = l := by
  have hcomp : Relation.Comp (· = List.map f ·) List.Perm l as := by
    rw [List.eq_map_comp_perm]
    exact h
  obtain ⟨bs, rfl, hbs⟩ := hcomp
  exact ⟨bs, hbs, rfl⟩

/-- Bytes of the two layouts that agree up to what follows tell `P`, and the same follows. -/
def Layout.Tells (l m : Layout) (P : Prop) : Prop :=
  ∀ x y r s, l = .ok x → m = .ok y → x ++ r = y ++ s → P ∧ r = s

namespace Layout.Tells

variable {l m : Layout} {P Q : Prop}

theorem imp (h : l.Tells m P) (hPQ : P → Q) : l.Tells m Q := by
  intro x y r s hx hy hxy
  obtain ⟨hp, hr⟩ := h x y r s hx hy hxy
  exact ⟨hPQ hp, hr⟩

theorem within {o o' : Options} {d d' : Nat} (h : l.Tells m P) :
    (within o d l).Tells (within o' d' m) P := by
  intro x y r s hx hy hxy
  exact h x y r s (within_eq_ok.mp hx).2 (within_eq_ok.mp hy).2 hxy

theorem concat {α γ : Type} {f f' : α → Layout} {g : α → γ} {as bs : List α}
    (h : List.Forall₂ (fun a b ↦ (f a).Tells (f' b) (g a = g b)) as bs) :
    (concat (as.map f)).Tells (concat (bs.map f')) (as.map g = bs.map g) := by
  induction h with
  | nil =>
    intro x y r s hx hy hxy
    cases hx
    cases hy
    exact ⟨rfl, hxy⟩
  | @cons a b as bs hab has ih =>
    intro x y r s hx hy hxy
    simp only [List.map_cons, concat_cons, bind_eq_ok, pure_eq_ok] at hx hy
    obtain ⟨xa, hxa, xs, hxs, rfl⟩ := hx
    obtain ⟨yb, hyb, ys, hys, rfl⟩ := hy
    rw [List.append_assoc, List.append_assoc] at hxy
    obtain ⟨hhead, hrest⟩ := hab _ _ _ _ hxa hyb hxy
    obtain ⟨htail, hr⟩ := ih _ _ _ _ hxs hys hrest
    exact ⟨by rw [List.map_cons, List.map_cons, hhead, htail], hr⟩

theorem concat_of_length {α γ : Type} {f f' : α → Layout} {g : α → γ} {as bs : List α}
    (hlength : as.length = bs.length)
    (h : ∀ a ∈ as, ∀ b ∈ bs, (f a).Tells (f' b) (g a = g b)) :
    (Layout.concat (as.map f)).Tells (Layout.concat (bs.map f')) (as.map g = bs.map g) := by
  apply concat
  refine List.forall₂_iff_zip.mpr ⟨hlength, ?_⟩
  intro a b hp
  obtain ⟨ha, hb⟩ := List.of_mem_zip hp
  exact h _ ha _ hb

theorem text (t u : String) : (text t).Tells (text u) (t = u) :=
  fun _ _ _ _ hx hy hxy ↦ text_append_inj hx hy hxy

theorem bytes (bs cs : List UInt8) :
    (bytes .tagged bs).Tells (bytes .tagged cs) (bs = cs) := by
  intro x y r s hx hy hxy
  cases bs with
  | nil =>
    cases hx
    cases cs with
    | nil =>
      cases hy
      exact ⟨rfl, List.tail_eq_of_cons_eq hxy⟩
    | cons c cs =>
      obtain ⟨-, rfl⟩ := bytes_cons_eq_ok.mp hy
      exact absurd (List.head_eq_of_cons_eq hxy) (by decide)
  | cons b bs =>
    obtain ⟨-, rfl⟩ := bytes_cons_eq_ok.mp hx
    cases cs with
    | nil =>
      cases hy
      exact absurd (List.head_eq_of_cons_eq hxy) (by decide)
    | cons c cs =>
      obtain ⟨-, rfl⟩ := bytes_cons_eq_ok.mp hy
      simp only [List.cons_append, List.append_assoc, List.cons.injEq, true_and] at hxy
      obtain ⟨hlength, hitems⟩ := Base128.ofNat_append_inj hxy
      exact Piece.bytes_append_inj hlength hitems

end Layout.Tells

namespace Value

variable {o o' : Options} {d d' : Nat} {P Q : Prop}

theorem pointer_tells {v w : Value} (h : (v.layout o d).Tells (w.layout o' d') P) :
    ((pointer v).body o d).Tells ((pointer w).body o' d') P := by
  intro x y r s hx hy hxy
  obtain ⟨xs, hxs, rfl⟩ := body_pointer_eq_ok.mp hx
  obtain ⟨ys, hys, rfl⟩ := body_pointer_eq_ok.mp hy
  exact h _ _ _ _ hxs hys (List.tail_eq_of_cons_eq hxy)

variable {α γ : Type} {g : α → γ}

theorem plain_tells {f : α → Value} {as bs : List α}
    (h : List.Forall₂ (fun a b ↦ ((f a).layout o d).Tells ((f b).layout o' d') (g a = g b)) as bs) :
    ((object (.plain (as.map f))).body o d).Tells ((object (.plain (bs.map f))).body o' d')
      (as.map g = bs.map g) := by
  intro x y r s hx hy hxy
  obtain ⟨p, hp, hsize, rfl⟩ := body_plain_eq_ok.mp hx
  obtain ⟨q, hq, hsize', rfl⟩ := body_plain_eq_ok.mp hy
  obtain ⟨rfl, hr⟩ := Frame.around_append_inj hsize hsize' hxy
  rw [List.map_map] at hp hq
  exact ⟨(Layout.Tells.concat h p p [] [] hp hq rfl).1, hr⟩

theorem array_tells (ho : o.integerArrays = .tagged) (ho' : o'.integerArrays = .tagged) {k : Kind}
    {f : α → Value} {as bs : List α}
    (h : ∀ a ∈ as, ∀ b ∈ bs, ((f a).layout o d).Tells ((f b).layout o' d') (g a = g b)) :
    ((array k (as.map f)).body o d).Tells ((array k (bs.map f)).body o' d')
      (as.map g = bs.map g) := by
  intro x y r s hx hy hxy
  cases as with
  | nil =>
    have hx : Piece.emptyArray k = .ok x := hx
    cases bs with
    | nil =>
      have hy : Piece.emptyArray k = .ok y := hy
      rw [hx] at hy
      cases hy
      exact ⟨rfl, List.append_cancel_left hxy⟩
    | cons b bs =>
      obtain ⟨tag, rest, htag, -, -, -, rfl⟩ := body_array_cons_eq_ok.mp hy
      obtain ⟨_, _, rfl, rfl, hne⟩ := Piece.emptyArray_ne_arrayTag hx (ho' ▸ htag)
      exact absurd (List.head_eq_of_cons_eq hxy) hne
  | cons a as =>
    obtain ⟨tag, xs, htag, -, -, hxs, rfl⟩ := body_array_cons_eq_ok.mp hx
    rw [ho] at htag
    cases bs with
    | nil =>
      have hy : Piece.emptyArray k = .ok y := hy
      obtain ⟨_, _, rfl, rfl, hne⟩ := Piece.emptyArray_ne_arrayTag hy htag
      exact absurd (List.head_eq_of_cons_eq hxy).symm hne
    | cons b bs =>
      obtain ⟨tag', ys, htag', -, -, hys, rfl⟩ := body_array_cons_eq_ok.mp hy
      rw [ho', htag] at htag'
      cases htag'
      simp only [List.append_assoc, List.append_cancel_left_eq] at hxy
      obtain ⟨hlength, hitems⟩ := Base128.ofNat_append_inj hxy
      rw [← List.map_cons, List.map_map] at hxs hys
      exact Layout.Tells.concat_of_length (by simpa using hlength) h _ _ _ _ hxs hys hitems

theorem entry_tells {a b : Value × Value}
    (hkey : (a.1.layout o (d + 1)).Tells (b.1.layout o' (d' + 1)) P)
    (hvalue : (a.2.layout o (d + 1)).Tells (b.2.layout o' (d' + 1)) Q) :
    (entryLayout o d a).Tells (entryLayout o' d' b) (P ∧ Q) := by
  intro x y r s hx hy hxy
  obtain ⟨-, p, q, hp, hq, hsize, rfl⟩ := entryLayout_eq_ok.mp hx
  obtain ⟨-, p', q', hp', hq', hsize', rfl⟩ := entryLayout_eq_ok.mp hy
  obtain ⟨hpq, hr⟩ := Frame.around_append_inj hsize hsize' hxy
  obtain ⟨hP, hq⟩ := hkey _ _ _ _ hp hp' hpq
  subst hq
  exact ⟨⟨hP, (hvalue q q [] [] hq hq' rfl).1⟩, hr⟩

theorem map_tells {j k : Kind} {f : α → Value × Value} {as bs : List α}
    (h : ∀ a ∈ as, ∀ b ∈ bs,
      (entryLayout o d (f a)).Tells (entryLayout o' d' (f b)) (g a = g b)) :
    ((map j k (as.map f)).body o d).Tells ((map j k (bs.map f)).body o' d')
      ((as.map g).Perm (bs.map g)) := by
  intro x y r s hx hy hxy
  cases as with
  | nil =>
    cases hx
    cases bs with
    | nil =>
      cases hy
      exact ⟨.nil, List.tail_eq_of_cons_eq hxy⟩
    | cons b bs =>
      obtain ⟨-, -, arranged, ys, -, -, rfl⟩ := body_map_cons_eq_ok.mp hy
      exact absurd (List.head_eq_of_cons_eq hxy) (by decide)
  | cons a as =>
    obtain ⟨-, -, arranged, xs, harranged, hxs, rfl⟩ := body_map_cons_eq_ok.mp hx
    cases bs with
    | nil =>
      cases hy
      exact absurd (List.head_eq_of_cons_eq hxy) (by decide)
    | cons b bs =>
      obtain ⟨-, -, arranged', ys, harranged', hys, rfl⟩ := body_map_cons_eq_ok.mp hy
      simp only [List.cons_append, List.append_assoc, List.cons.injEq, true_and] at hxy
      obtain ⟨hlength, hentries⟩ := Base128.ofNat_append_inj hxy
      have hperm := order_perm harranged
      have hperm' := order_perm harranged'
      rw [← List.map_cons] at hperm hperm' hlength
      obtain ⟨as', has', rfl⟩ := exists_map_eq_of_perm hperm
      obtain ⟨bs', hbs', rfl⟩ := exists_map_eq_of_perm hperm'
      rw [List.map_map] at hxs hys
      have hlength' : as'.length = bs'.length := by
        rw [has'.length_eq, hbs'.length_eq]
        simpa using hlength
      have hrow := Layout.Tells.concat_of_length hlength' fun a ha b hb ↦
        h a (has'.mem_iff.mp ha) b (hbs'.mem_iff.mp hb)
      obtain ⟨heq, hr⟩ := hrow _ _ _ _ hxs hys hentries
      refine ⟨?_, hr⟩
      calc
        ((a :: as).map g).Perm (as'.map g) := (has'.map g).symm
        _ = bs'.map g := heq
        List.Perm _ ((b :: bs).map g) := hbs'.map g

end Value

namespace Datum

variable {S : Schema} {t : Shape} {x y : Datum} {o o' : Options}

theorem entries_tell {k v : Shape} {es fs : List (Datum × Datum)} (hfs : Entries S k v fs)
    (hkey : ∀ a ∈ es, ∀ y : Datum, y.HasShape S k → ∀ d d',
      (a.1.toValue.layout o d).Tells (y.toValue.layout o' d') (a.1.settle = y.settle))
    (hvalue : ∀ a ∈ es, ∀ y : Datum, y.HasShape S v → ∀ d d',
      (a.2.toValue.layout o d).Tells (y.toValue.layout o' d') (a.2.settle = y.settle))
    (d d' : Nat) :
    ((Value.map k.kind v.kind (entriesToValue es)).body o d).Tells
      ((Value.map k.kind v.kind (entriesToValue fs)).body o' d')
      ((es.map settleEntry).Perm (fs.map settleEntry)) := by
  rw [entriesToValue_eq, entriesToValue_eq]
  apply Value.map_tells
  intro a ha b hb
  have hkeys := hkey a ha b.1 (hfs.keys b hb) (d + 1) (d' + 1)
  have hvalues := hvalue a ha b.2 (hfs.values b hb) (d + 1) (d' + 1)
  exact (Value.entry_tells hkeys hvalues).imp fun hab ↦ Prod.ext hab.1 hab.2

/-- The static type and the bytes of a value tell the value, but for the order in which its hashed
maps are visited. -/
theorem layout_tells (ht : ¬ Shape.Occurs S .object t) (hx : x.HasShape S t)
    (hy : y.HasShape S t) (ho : o.integerArrays = .tagged) (ho' : o'.integerArrays = .tagged)
    (d d' : Nat) : (x.toValue.layout o d).Tells (y.toValue.layout o' d') (x.settle = y.settle) := by
  induction x, t, hx using HasShape.by_parts generalizing y d d' with
  | bool b h =>
    cases y with
    | bool c =>
      apply Layout.Tells.within
      intro x y r s hx hy hxy
      cases hx
      cases hy
      have htag : (Opening.bool b).tag = (Opening.bool c).tag := List.head_eq_of_cons_eq hxy
      cases Opening.tag_injective htag
      exact ⟨rfl, List.tail_eq_of_cons_eq hxy⟩
    | _ => simp [HasShape] at hy
  | int n k h =>
    cases y with
    | int m =>
      apply Layout.Tells.within
      intro x y r s hx hy hxy
      cases hx
      cases hy
      obtain ⟨rfl, hr⟩ := Piece.integer_append_inj hxy
      exact ⟨rfl, hr⟩
    | _ => simp [HasShape] at hy
  | float x k h =>
    apply Layout.Tells.within
    intro x y r s hx hy hxy
    cases hx
  | text u h =>
    cases y with
    | text w => exact .within ((Layout.Tells.text u w).imp (congrArg text))
    | _ => simp [HasShape] at hy
  | bytes bs h =>
    cases y with
    | bytes cs =>
      have htells := (Layout.Tells.bytes bs cs).imp (congrArg bytes)
      refine .within ?_
      rwa [toValue, toValue, Value.body, Value.body, ho, ho']
    | _ => simp [HasShape] at hy
  | object u h => exact absurd .here ht
  | boxed x s h ih =>
    cases y with
    | boxed y =>
      have htells := ih h (fun hs ↦ ht (.boxed hs)) hy d d'
      exact htells.imp (congrArg boxed)
    | _ => simp [HasShape] at hy
  | none s h =>
    cases y with
    | none =>
      apply Layout.Tells.within
      intro x y r s hx hy hxy
      cases hx
      cases hy
      exact ⟨rfl, List.tail_eq_of_cons_eq hxy⟩
    | some y =>
      apply Layout.Tells.within
      intro x y r s hx hy hxy
      cases hx
      obtain ⟨ys, -, rfl⟩ := Value.body_pointer_eq_ok.mp hy
      exact absurd (List.head_eq_of_cons_eq hxy) (by decide)
    | _ => simp [HasShape] at hy
  | some x s h ih =>
    cases y with
    | none =>
      apply Layout.Tells.within
      intro x y r s hx hy hxy
      obtain ⟨xs, -, rfl⟩ := Value.body_pointer_eq_ok.mp hx
      cases hy
      exact absurd (List.head_eq_of_cons_eq hxy) (by decide)
    | some y =>
      have htells := ih h (fun hs ↦ ht (.option hs)) hy (d + 1) (d' + 1)
      exact .within ((Value.pointer_tells htells).imp (congrArg some))
    | _ => simp [HasShape] at hy
  | list xs s h ih =>
    cases y with
    | list elem ys =>
      obtain ⟨-, hxs⟩ := hasShape_list.mp h
      obtain ⟨rfl, hys⟩ := hasShape_list.mp hy
      have hitems (a) (ha : a ∈ xs) (b) (hb : b ∈ ys) :=
        ih a ha (hxs a ha) (fun hs ↦ ht (.list hs)) (hys b hb) (d + 1) (d' + 1)
      have htells := Value.array_tells ho ho' (k := elem.kind) hitems
      refine .within ?_
      rw [toValue, toValue, listToValue_eq, listToValue_eq, settle, settle, settleAll_eq,
        settleAll_eq]
      exact htells.imp (congrArg (list elem))
    | _ => simp [HasShape] at hy
  | orderedMap es k v h ih =>
    cases y with
    | orderedMap key value fs =>
      obtain ⟨-, -, hes, hlt⟩ := hasShape_orderedMap.mp h
      obtain ⟨rfl, rfl, hfs, hlt'⟩ := hasShape_orderedMap.mp hy
      have hentries := entries_tell hfs
        (fun a ha y hy ↦ (ih a ha).1 (hes.keys a ha) (fun hs ↦ ht (.orderedKey hs)) hy)
        (fun a ha y hy ↦ (ih a ha).2 (hes.values a ha) (fun hs ↦ ht (.orderedValue hs)) hy)
      exact .within ((hentries _ _).imp (settle_orderedMap_eq hes hfs hlt hlt'))
    | _ => simp [HasShape] at hy
  | hashedMap es k v h ih =>
    cases y with
    | hashedMap key value fs =>
      obtain ⟨-, -, hes, hne⟩ := hasShape_hashedMap.mp h
      obtain ⟨rfl, rfl, hfs, -⟩ := hasShape_hashedMap.mp hy
      have hentries := entries_tell hfs
        (fun a ha y hy ↦ (ih a ha).1 (hes.keys a ha) (fun hs ↦ ht (.hashedKey hs)) hy)
        (fun a ha y hy ↦ (ih a ha).2 (hes.values a ha) (fun hs ↦ ht (.hashedValue hs)) hy)
      exact .within ((hentries _ _).imp (settle_hashedMap_iff hes hfs hne).mpr)
    | _ => simp [HasShape] at hy
  | record n xs h ih =>
    cases y with
    | record m ys =>
      obtain ⟨-, hxs⟩ := hasShape_record.mp h
      obtain ⟨rfl, hys⟩ := hasShape_record.mp hy
      have hfields := (forall₂_of_shapes hxs hys).imp fun a b hab ↦ by
        obtain ⟨ha, s, hs, has, hbs⟩ := hab
        exact ih a ha s has (fun hocc ↦ ht (.field hs hocc)) hbs (d + 1) (d' + 1)
      refine .within ?_
      rw [toValue, toValue, listToValue_eq, listToValue_eq, settle, settle, settleAll_eq,
        settleAll_eq]
      exact (Value.plain_tells hfields).imp (congrArg (record m))
    | _ => simp [HasShape] at hy

/-- A reader who knows the static type recovers a value and tells where it ends. -/
theorem encode_toValue_append_inj (ht : ¬ Shape.Occurs S .object t) (hx : x.HasShape S t)
    (hy : y.HasShape S t) (ho : o.integerArrays = .tagged) (ho' : o'.integerArrays = .tagged)
    {p q r s : List UInt8} (hp : x.toValue.encode o = .ok p) (hq : y.toValue.encode o' = .ok q)
    (h : p ++ r = q ++ s) : x.settle = y.settle ∧ r = s := by
  have hpl := (Value.encode_eq_ok (toValue_customFree ht hx)).mp hp
  have hql := (Value.encode_eq_ok (toValue_customFree ht hy)).mp hq
  exact layout_tells ht hx hy ho ho' 0 0 p q r s hpl hql h

/-- A map from numbers to lists of texts, visited in two orders and written sorted the second
time. -/
theorem hashedMap_recovered :
    let one : Datum × Datum := (int ⟨.u8, 1, by decide, by decide⟩, list .text [text "x"])
    let two : Datum × Datum := (int ⟨.u8, 2, by decide, by decide⟩, list .text [])
    let x := hashedMap (.int .u8) (.list .text) [one, two]
    let y := hashedMap (.int .u8) (.list .text) [two, one]
    let p := [0x40, 2, 0, 15, 0, 0, 0, 0x0F, 4, 1, 8, 1, 0x4D, 1, 0x78, 0, 0x10, 0x11,
      0, 10, 0, 0, 0, 0x0F, 4, 2, 0xC8, 0x10, 0x11]
    x.toValue.encode { integerArrays := .tagged } = .ok p ∧
      y.toValue.encode { sortedMaps := true, integerArrays := .tagged } = .ok p ∧ x ≠ y ∧
      x.settle = y.settle := by
  intro one two x y p
  let S : Schema := fun _ ↦ []
  let t := Shape.hashedMap (.int .u8) (.list .text)
  have ht : ¬ Shape.Occurs S .object t := by
    intro h
    dsimp only [t] at h
    cases h with
    | hashedKey h => cases h
    | hashedValue h =>
      cases h with
      | list h => cases h
  have hkey : (Shape.int .u8).IsKey S := by
    rintro _ ⟨⟩
    trivial
  have hx : x.HasShape S t := by
    simp [x, t, one, two, HasShape, hkey, EntriesHaveShape, AllHaveShape, compare]
  have hy : y.HasShape S t := by
    simp [y, t, one, two, HasShape, hkey, EntriesHaveShape, AllHaveShape, compare]
  have hp : x.toValue.encode { integerArrays := .tagged } = .ok p :=
    eq_ok_of_toOption (by decide +kernel)
  have hq : y.toValue.encode { sortedMaps := true, integerArrays := .tagged } = .ok p := by
    rw [Value.encode_eq_ok (toValue_customFree ht hy)]
    refine Value.layout_eq_ok.mpr ⟨by decide, ?_⟩
    refine Value.body_map_cons_eq_ok.mpr ⟨by decide, by decide, ?_⟩
    refine ⟨[entryToValue one, entryToValue two], p.drop 2, ?_,
      eq_ok_of_toOption (by decide +kernel), by decide +kernel⟩
    have hlt : (entryToValue one).1.rank < (entryToValue two).1.rank := by decide
    exact congrArg Except.ok (mergeSort_pair (decide_eq_false (not_not_intro hlt)))
  have h := encode_toValue_append_inj ht hx hy rfl rfl hp hq (Eq.refl (p ++ [7]))
  exact ⟨hp, hq, by simp [x, y, one, two], h.1⟩

end Datum

end TaggedWire
