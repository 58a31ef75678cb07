import Mathlib.Data.List.Nodup
import TaggedWire.Proofs.Delimiting
import TaggedWire.Proofs.Shaped

namespace TaggedWire

namespace Shape.IsKey

variable {S : Schema} {s k v : Shape} {n : String}

theorem boxed (h : (boxed s).IsKey S) : s.IsKey S := fun t ht ↦ h t (.boxed ht)

theorem option (h : (option s).IsKey S) : s.IsKey S := fun t ht ↦ h t (.option ht)

theorem list (h : (list s).IsKey S) : s.IsKey S := fun t ht ↦ h t (.list ht)

theorem key (h : (orderedMap k v).IsKey S) : k.IsKey S := fun t ht ↦ h t (.orderedKey ht)

theorem value (h : (orderedMap k v).IsKey S) : v.IsKey S := fun t ht ↦ h t (.orderedValue ht)

theorem field (h : (record n).IsKey S) : ∀ s ∈ S n, s.IsKey S := fun _ hs t ht ↦ h t (.field hs ht)

end Shape.IsKey

namespace Datum

abbrev Token := Int × String × List UInt8

def Token.compare : Token → Token → Ordering :=
  compareLex (compareOn (·.1)) (compareLex (compareOn (·.2.1)) (compareOn (·.2.2)))

def Token.mark (n : Int) : Token := (n, "", [])

mutual

/-- The tokens of a key. The mark 1 stands before each part of a sequence and 0 at its end, so
that no key's tokens start another's. -/
def tokens : Datum → List Token
  | bool b => [.mark b.toInt]
  | int n => [.mark n.val]
  | text s => [(0, s, [])]
  | bytes bs => [(0, "", bs)]
  | boxed d => d.tokens
  | none => [.mark 0]
  | some d => .mark 1 :: d.tokens
  | list _ ds | record _ ds => tokensAll ds
  | orderedMap _ _ es => tokensEntries es
  | _ => []

def tokensAll : List Datum → List Token
  | [] => [.mark 0]
  | d :: ds => .mark 1 :: (d.tokens ++ tokensAll ds)

def tokensEntries : List (Datum × Datum) → List Token
  | [] => [.mark 0]
  | (k, v) :: rest => .mark 1 :: (k.tokens ++ (v.tokens ++ tokensEntries rest))

end

def compareTokens : List Token → List Token → Ordering := List.compareLex Token.compare

instance : Std.TransCmp compareTokens :=
  inferInstanceAs (Std.TransCmp (List.compareLex (compareLex _ (compareLex _ _))))

theorem compareTokens_cons (a b : Token) (r s : List Token) :
    compareTokens (a :: r) (b :: s) = (a.compare b).then (compareTokens r s) :=
  List.compareLex_cons_cons

/-- Two data compare as their tokens do, before anything that follows them, and are equal when
neither comes first. -/
structure Ranked (d e : Datum) : Prop where
  tokens : ∀ r s, compareTokens (d.tokens ++ r) (e.tokens ++ s) =
    (d.compare e).then (compareTokens r s)
  eq : d.compare e = .eq → d = e

namespace Ranked

variable {d e : Datum} {ds es : List Datum} {fs gs : List (Datum × Datum)}

theorem all (h : ∀ p ∈ ds.zip es, Ranked p.1 p.2) :
    (∀ r s, compareTokens (tokensAll ds ++ r) (tokensAll es ++ s) =
      (compareAll ds es).then (compareTokens r s)) ∧ (compareAll ds es = .eq → ds = es) := by
  induction ds generalizing es with
  | nil =>
    cases es with
    | nil => exact ⟨fun r s ↦ compareTokens_cons .., fun _ ↦ rfl⟩
    | cons e es => exact ⟨fun r s ↦ compareTokens_cons .., fun h ↦ by cases h⟩
  | cons d ds ih =>
    cases es with
    | nil => exact ⟨fun r s ↦ compareTokens_cons .., fun h ↦ by cases h⟩
    | cons e es =>
      have hde : Ranked d e := h (d, e) List.mem_cons_self
      obtain ⟨htokens, heq⟩ := ih fun p hp ↦ h p (List.mem_cons_of_mem _ hp)
      refine ⟨?_, ?_⟩
      · intro r s
        simp only [tokensAll, List.cons_append, List.append_assoc, compareTokens_cons,
          hde.tokens, htokens, compareAll, Ordering.then_assoc]
        rfl
      · intro h
        rw [compareAll, Ordering.then_eq_eq] at h
        rw [hde.eq h.1, heq h.2]

theorem entries (h : ∀ p ∈ fs.zip gs, Ranked p.1.1 p.2.1 ∧ Ranked p.1.2 p.2.2) :
    (∀ r s, compareTokens (tokensEntries fs ++ r) (tokensEntries gs ++ s) =
      (compareEntries fs gs).then (compareTokens r s)) ∧
      (compareEntries fs gs = .eq → fs = gs) := by
  induction fs generalizing gs with
  | nil =>
    cases gs with
    | nil => exact ⟨fun r s ↦ compareTokens_cons .., fun _ ↦ rfl⟩
    | cons g gs => exact ⟨fun r s ↦ compareTokens_cons .., fun h ↦ by cases h⟩
  | cons f fs ih =>
    cases gs with
    | nil => exact ⟨fun r s ↦ compareTokens_cons .., fun h ↦ by cases h⟩
    | cons g gs =>
      obtain ⟨j, v⟩ := f
      obtain ⟨k, w⟩ := g
      have hkey : Ranked j k := (h _ List.mem_cons_self).1
      have hvalue : Ranked v w := (h _ List.mem_cons_self).2
      obtain ⟨htokens, heq⟩ := ih fun p hp ↦ h p (List.mem_cons_of_mem _ hp)
      refine ⟨?_, ?_⟩
      · intro r s
        simp only [tokensEntries, List.cons_append, List.append_assoc, compareTokens_cons,
          hkey.tokens, hvalue.tokens, htokens, compareEntries, Ordering.then_assoc]
        rfl
      · intro h
        rw [compareEntries, Ordering.then_eq_eq, Ordering.then_eq_eq] at h
        rw [hkey.eq h.1.1, hvalue.eq h.1.2, heq h.2]

theorem leaf {a b : Token} (hd : d.tokens = [a]) (he : e.tokens = [b])
    (h : a.compare b = d.compare e) (heq : d.compare e = .eq → d = e) : Ranked d e := by
  refine ⟨fun r s ↦ ?_, heq⟩
  rw [hd, he, List.singleton_append, List.singleton_append, compareTokens_cons, h]

end Ranked

theorem Token.compare_mark (m n : Int) :
    (mark m).compare (mark n) = Ord.compare m n := by
  simp [Token.compare, compareLex, compareOn, mark]

variable {S : Schema} {k : Shape}

theorem ranked {d e : Datum} (hk : k.IsKey S) (hd : d.HasShape S k) (he : e.HasShape S k) :
    Ranked d e := by
  induction d, k, hd using HasShape.by_parts generalizing e with
  | bool b h =>
    cases e with
    | bool c =>
      refine .leaf rfl rfl ?_ ?_
      · rw [Token.compare_mark]
        cases b <;> cases c <;> rfl
      · cases b <;> cases c <;> simp [compare]
    | _ => simp [HasShape] at he
  | int n j h =>
    cases e with
    | int m =>
      refine .leaf rfl rfl (Token.compare_mark ..) fun heq ↦ ?_
      have hval : n.val = m.val := Std.LawfulEqOrd.eq_of_compare heq
      rw [Integer.eq_of_val (h.trans he.symm) hval]
    | _ => simp [HasShape] at he
  | float x j h => exact False.elim (hk _ .here)
  | text t h =>
    cases e with
    | text u =>
      refine .leaf rfl rfl ?_ fun heq ↦ ?_
      · simp [Token.compare, compareLex, compareOn, compare]
      · rw [Std.LawfulEqOrd.eq_of_compare heq]
    | _ => simp [HasShape] at he
  | bytes bs h =>
    cases e with
    | bytes cs =>
      refine .leaf rfl rfl ?_ fun heq ↦ ?_
      · simp [Token.compare, compareLex, compareOn, compare]
      · rw [Std.LawfulEqOrd.eq_of_compare heq]
    | _ => simp [HasShape] at he
  | object o h => exact False.elim (hk _ .here)
  | boxed d s h ih =>
    cases e with
    | boxed e =>
      have hde : Ranked d e := ih h hk.boxed he
      exact ⟨hde.tokens, fun heq ↦ congrArg boxed (hde.eq heq)⟩
    | _ => simp [HasShape] at he
  | none s h =>
    cases e with
    | none => exact .leaf rfl rfl (Token.compare_mark ..) fun _ ↦ rfl
    | some e => exact ⟨fun r s ↦ compareTokens_cons .., fun heq ↦ by cases heq⟩
    | _ => simp [HasShape] at he
  | some d s h ih =>
    cases e with
    | none => exact ⟨fun r s ↦ compareTokens_cons .., fun heq ↦ by cases heq⟩
    | some e =>
      have hde : Ranked d e := ih h hk.option he
      refine ⟨fun r s ↦ ?_, fun heq ↦ congrArg some (hde.eq heq)⟩
      simp only [tokens, List.cons_append, compareTokens_cons, hde.tokens]
      rfl
    | _ => simp [HasShape] at he
  | list ds s h ih =>
    cases e with
    | list elem es =>
      obtain ⟨-, hds⟩ := hasShape_list.mp h
      obtain ⟨rfl, hes⟩ := hasShape_list.mp he
      obtain ⟨htokens, heq⟩ := Ranked.all fun p hp ↦
        ih p.1 (List.of_mem_zip hp).1 (hds _ (List.of_mem_zip hp).1) hk.list
          (hes _ (List.of_mem_zip hp).2)
      exact ⟨htokens, fun h ↦ congrArg (list elem) (heq h)⟩
    | _ => simp [HasShape] at he
  | orderedMap fs j v h ih =>
    cases e with
    | orderedMap key value gs =>
      obtain ⟨-, -, hfs, -⟩ := hasShape_orderedMap.mp h
      obtain ⟨rfl, rfl, hgs, -⟩ := hasShape_orderedMap.mp he
      obtain ⟨htokens, heq⟩ := Ranked.entries fun p hp ↦ by
        obtain ⟨hf, hg⟩ := List.of_mem_zip hp
        exact ⟨(ih p.1 hf).1 (hfs.keys _ hf) hk.key (hgs.keys _ hg),
          (ih p.1 hf).2 (hfs.values _ hf) hk.value (hgs.values _ hg)⟩
      exact ⟨htokens, fun h ↦ congrArg (orderedMap key value) (heq h)⟩
    | _ => simp [HasShape] at he
  | hashedMap fs j v h ih => exact False.elim (hk _ .here)
  | record n ds h ih =>
    cases e with
    | record m es =>
      obtain ⟨-, hds⟩ := hasShape_record.mp h
      obtain ⟨rfl, hes⟩ := hasShape_record.mp he
      obtain ⟨htokens, heq⟩ := Ranked.all fun p hp ↦ by
        obtain ⟨hd, s, hs, hp1, hp2⟩ := List.forall₂_zip (forall₂_of_shapes hds hes) hp
        exact ih p.1 hd s hp1 (hk.field s hs) hp2
      exact ⟨htokens, fun h ↦ congrArg (record m) (heq h)⟩
    | _ => simp [HasShape] at he

theorem settle_of_isKey {d : Datum} (hk : k.IsKey S) (hd : d.HasShape S k) : d.settle = d := by
  induction d, k, hd using HasShape.by_parts with
  | bool | int | text | bytes | none => rfl
  | float | object | hashedMap => exact False.elim (hk _ .here)
  | boxed d s h ih => rw [settle, ih h hk.boxed]
  | some d s h ih => rw [settle, ih h hk.option]
  | list ds s h ih =>
    obtain ⟨-, hds⟩ := hasShape_list.mp h
    rw [settle, settleAll_eq, map_eq_self fun d hd ↦ ih d hd (hds d hd) hk.list]
  | orderedMap es j v h ih =>
    obtain ⟨-, -, hes, -⟩ := hasShape_orderedMap.mp h
    have hsettle : es.map settleEntry = es := map_eq_self fun e he ↦
      Prod.ext ((ih e he).1 (hes.keys e he) hk.key) ((ih e he).2 (hes.values e he) hk.value)
    rw [settle, settleEntries_eq, hsettle]
  | record n ds h ih =>
    obtain ⟨-, hds⟩ := hasShape_record.mp h
    have hsettle : ds.map settle = ds := map_eq_self fun d hd ↦ by
      obtain ⟨s, hs, hd'⟩ := exists_shape_of_mem hds hd
      exact ih d hd s hd' (hk.field s hs)
    rw [settle, settleAll_eq, hsettle]

variable {v : Shape} {es fs : List (Datum × Datum)}

theorem compare_eq_compareTokens {d e : Datum} (hk : k.IsKey S) (hd : d.HasShape S k)
    (he : e.HasShape S k) : d.compare e = compareTokens d.tokens e.tokens := by
  have h := (ranked hk hd he).tokens [] []
  rw [List.append_nil, List.append_nil] at h
  rw [h]
  exact Ordering.then_eq.symm

def keyLE (d e : Datum) : Bool := (compareTokens d.tokens e.tokens).isLE

def entryLE (a b : Datum × Datum) : Bool := keyLE a.1 b.1

theorem entryLE_trans (a b c : Datum × Datum) (hab : entryLE a b) (hbc : entryLE b c) :
    entryLE a c :=
  Std.TransCmp.isLE_trans hab hbc

theorem entryLE_total (a b : Datum × Datum) : entryLE a b || entryLE b a := by
  have hswap : compareTokens b.1.tokens a.1.tokens =
      (compareTokens a.1.tokens b.1.tokens).swap := Std.OrientedCmp.eq_swap
  unfold entryLE keyLE
  rw [hswap]
  cases compareTokens a.1.tokens b.1.tokens <;> rfl

theorem keyLE_iff {d e : Datum} (hk : k.IsKey S) (hd : d.HasShape S k) (he : e.HasShape S k) :
    keyLE d e = true ↔ d.compare e ≠ .gt := by
  rw [compare_eq_compareTokens hk hd he, keyLE, Ordering.isLE_iff_ne_gt]

theorem ne_of_compare_ne_eq {d e : Datum} (hk : k.IsKey S) (hd : d.HasShape S k)
    (h : d.compare e ≠ .eq) : d ≠ e := by
  rintro rfl
  rw [compare_eq_compareTokens hk hd hd] at h
  exact h Std.ReflCmp.compare_self

theorem eq_of_perm_of_sorted (hk : ∀ _ ∈ es, k.IsKey S) (hkeys : ∀ d ∈ es.map (·.1), d.HasShape S k)
    (hne : (es.map (·.1)).Nodup) (hp : es.Perm fs) (hes : es.Pairwise (entryLE · ·))
    (hfs : fs.Pairwise (entryLE · ·)) : es = fs := by
  refine hp.eq_of_pairwise (fun a b ha hb hab hba ↦ ?_) hes hfs
  have hb' := hp.mem_iff.mpr hb
  have ha1 := hkeys a.1 (List.mem_map_of_mem ha)
  have hb1 := hkeys b.1 (List.mem_map_of_mem hb')
  have heq : a.1.compare b.1 = .eq := by
    rw [compare_eq_compareTokens (hk a ha) ha1 hb1]
    exact Std.OrientedCmp.isLE_antisymm hab hba
  exact List.inj_on_of_nodup_map hne ha hb' ((ranked (hk a ha) ha1 hb1).eq heq)

namespace Entries

theorem settle_key (h : Entries S k v es) : (es.map settleEntry).map (·.1) = es.map (·.1) := by
  rw [List.map_map]
  exact List.map_congr_left fun e he ↦ settle_of_isKey (h.isKey e he) (h.keys e he)

theorem settle_isKey (h : Entries S k v es) : ∀ _ ∈ es.map settleEntry, k.IsKey S :=
  List.forall_mem_map.mpr h.isKey

theorem settle_keys (h : Entries S k v es) :
    ∀ d ∈ (es.map settleEntry).map (·.1), d.HasShape S k := by
  rw [h.settle_key]
  intro d hd
  obtain ⟨e, he, rfl⟩ := List.mem_map.mp hd
  exact h.keys e he

theorem nodup (h : Entries S k v es) (hne : es.Pairwise fun a b ↦ a.1.compare b.1 ≠ .eq) :
    ((es.map settleEntry).map (·.1)).Nodup := by
  rw [h.settle_key, List.Nodup, List.pairwise_map]
  exact hne.imp_of_mem fun ha _ hab ↦ ne_of_compare_ne_eq (h.isKey _ ha) (h.keys _ ha) hab

theorem sorted (h : Entries S k v es) (hlt : es.Pairwise fun a b ↦ a.1.compare b.1 = .lt) :
    (es.map settleEntry).Pairwise (entryLE · ·) := by
  have hkeys : ((es.map settleEntry).map (·.1)).Pairwise (keyLE · ·) := by
    rw [h.settle_key, List.pairwise_map]
    apply hlt.imp_of_mem
    intro a b ha hb hab
    rw [keyLE_iff (h.isKey a ha) (h.keys _ ha) (h.keys _ hb), hab]
    decide
  rwa [List.pairwise_map] at hkeys

theorem sorted_mergeSort (h : Entries S k v es) :
    ((es.map settleEntry).mergeSort fun a b ↦ a.1.compare b.1 ≠ .gt).Pairwise (entryLE · ·) := by
  have hsort : ((es.map settleEntry).mergeSort fun a b ↦ a.1.compare b.1 ≠ .gt) =
      (es.map settleEntry).mergeSort entryLE := by
    have hle (a) (ha : a ∈ es.map settleEntry) (b) (hb : b ∈ es.map settleEntry) :
        decide (a.1.compare b.1 ≠ .gt) = entryLE a b := by
      rw [Bool.eq_iff_iff, decide_eq_true_iff]
      exact (keyLE_iff (h.settle_isKey a ha) (h.settle_keys _ (List.mem_map_of_mem ha))
        (h.settle_keys _ (List.mem_map_of_mem hb))).symm
    have hmap := List.map_mergeSort (f := id) (s := entryLE) hle
    rwa [List.map_id, List.map_id] at hmap
  rw [hsort]
  exact List.pairwise_mergeSort entryLE_trans entryLE_total _

end Entries

theorem settle_orderedMap_eq (hes : Entries S k v es) (hfs : Entries S k v fs)
    (hlt : es.Pairwise fun a b ↦ a.1.compare b.1 = .lt)
    (hlt' : fs.Pairwise fun a b ↦ a.1.compare b.1 = .lt)
    (hp : (es.map settleEntry).Perm (fs.map settleEntry)) :
    (orderedMap k v es).settle = (orderedMap k v fs).settle := by
  have hne : es.Pairwise fun a b ↦ a.1.compare b.1 ≠ .eq := hlt.imp fun h ↦ by rw [h]; decide
  have heq := eq_of_perm_of_sorted hes.settle_isKey hes.settle_keys (hes.nodup hne) hp (hes.sorted hlt)
    (hfs.sorted hlt')
  rw [settle, settle, settleEntries_eq, settleEntries_eq, heq]

theorem settle_hashedMap_iff (hes : Entries S k v es) (hfs : Entries S k v fs)
    (hne : es.Pairwise fun a b ↦ a.1.compare b.1 ≠ .eq) :
    (hashedMap k v es).settle = (hashedMap k v fs).settle ↔
      (es.map settleEntry).Perm (fs.map settleEntry) := by
  rw [settle, settle, settleEntries_eq, settleEntries_eq, hashedMap.injEq]
  have hperm := List.mergeSort_perm (es.map settleEntry) fun a b ↦ a.1.compare b.1 ≠ .gt
  have hperm' := List.mergeSort_perm (fs.map settleEntry) fun a b ↦ a.1.compare b.1 ≠ .gt
  constructor
  · intro h
    obtain ⟨-, -, heq⟩ := h
    rw [heq] at hperm
    exact hperm.symm.trans hperm'
  · intro hp
    have hkey (a) (ha : a ∈ (es.map settleEntry).mergeSort fun a b ↦ a.1.compare b.1 ≠ .gt) :
        k.IsKey S := hes.settle_isKey a (hperm.mem_iff.mp ha)
    refine ⟨rfl, rfl, eq_of_perm_of_sorted hkey ?_ ?_ ((hperm.trans hp).trans hperm'.symm)
      hes.sorted_mergeSort hfs.sorted_mergeSort⟩
    · intro d hd
      exact hes.settle_keys d ((hperm.map _).mem_iff.mp hd)
    · exact (hperm.map _).nodup_iff.mpr (hes.nodup hne)

end Datum

end TaggedWire
