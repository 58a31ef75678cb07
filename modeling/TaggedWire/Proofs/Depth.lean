import TaggedWire.Proofs.Verdict

namespace TaggedWire

open Layout

namespace Layout.Judged

variable {limit : Nat}

theorem ok (x : List UInt8) : Judged (.ok x) limit ⟨True, True, True⟩ x.length :=
  ⟨⟨trivial, trivial, trivial⟩, rfl⟩

theorem counted {head rest : Layout} {n m : Needs} {a b : Nat} (hhead : head.Judged limit n a)
    (k : Nat) (hrest : rest.Judged limit m b) :
    Judged (do
        let tag ← head
        let count ← Piece.count k
        return tag ++ count ++ (← rest)) limit
      ⟨n.formed ∧ m.formed, n.shallow ∧ m.shallow, n.small ∧ k < capacity 4 ∧ m.small⟩
      (a + (Base128.ofNat k).length + b) := by
  have h := hhead.seq ((count k).seq hrest)
  refine of_eq (h.congr ?_ ?_ .rfl (Nat.add_assoc ..).symm) ?_
  · simp [Needs.and]
  · simp [Needs.and]
  · simp

theorem text (arrays : IntegerArrays) (s : String) :
    (text s).Judged limit ⟨True, True, (Utf16.encode s.toList).length < capacity 4⟩
      ((Value.text s).wireLength arrays) := by
  rw [Layout.text, Value.wireLength]
  by_cases hs : s.isEmpty
  · obtain rfl := String.isEmpty_iff.mp hs
    exact ⟨⟨trivial, trivial, by decide⟩, rfl⟩
  · rw [if_neg hs, if_neg hs]
    have hhead := @ok limit [Tag.text.asArray]
    have h := hhead.counted (Utf16.encode s.toList).length
      (ok (Utf16.bytes (Utf16.encode s.toList)))
    refine of_eq (h.congr and_self_iff and_self_iff ?_ rfl) ?_
    · simp
    · dsimp only
      cases Piece.count (Utf16.encode s.toList).length <;> rfl

theorem bytes (arrays : IntegerArrays) (bs : List UInt8) :
    (bytes arrays bs).Judged limit ⟨True, True, bs.length < capacity 4⟩
      ((Value.bytes bs).wireLength arrays) := by
  rw [Layout.bytes, Value.wireLength]
  by_cases hbs : bs.isEmpty
  · obtain rfl := List.isEmpty_iff.mp hbs
    exact ⟨⟨trivial, trivial, by decide⟩, rfl⟩
  · rw [if_neg hbs, if_neg hbs]
    have htag : (Piece.integerArrayTag arrays .u8).length = tagLength arrays (.int .u8) := by
      cases arrays <;> rfl
    have hhead := @ok limit (Piece.integerArrayTag arrays .u8)
    have h := hhead.counted bs.length (ok (bs.flatMap Piece.byte))
    refine of_eq (h.congr and_self_iff and_self_iff ?_ (by rw [htag])) ?_
    · simp
    · cases Piece.count bs.length <;> rfl

theorem emptyArray (k : Kind) :
    Judged (Piece.emptyArray k) limit ⟨k.isElement, True, True⟩ 1 := by
  cases k <;> first | exact ⟨⟨rfl, trivial, trivial⟩, rfl⟩ | exact .inr (.inl ⟨trivial, nofun⟩)

theorem arrayTag (arrays : IntegerArrays) (k : Kind) :
    Judged (Piece.arrayTag arrays k) limit ⟨k.isElement, True, True⟩ (tagLength arrays k) := by
  cases k <;> cases arrays <;>
    first | exact ⟨⟨rfl, trivial, trivial⟩, rfl⟩ | exact .inr (.inl ⟨trivial, nofun⟩)

end Layout.Judged

namespace Value

def needs (o : Options) (depth : Nat) (v : Value) : Needs where
  formed := v.WellFormed
  shallow := depth + v.height ≤ o.maxDepth
  small := v.Fits o.integerArrays

def entryNeeds (o : Options) (depth : Nat) (e : Value × Value) : Needs where
  formed := e.1.WellFormed ∧ e.2.WellFormed
  shallow := depth < o.maxDepth ∧ depth + 1 + e.1.height ≤ o.maxDepth ∧
    depth + 1 + e.2.height ≤ o.maxDepth
  small := (e.1.Fits o.integerArrays ∧ e.2.Fits o.integerArrays) ∧
    e.1.wireLength o.integerArrays + e.2.wireLength o.integerArrays + Frame.headerSize +
      Frame.markerCount < capacity Frame.headerSize

variable {o : Options} {depth : Nat} {v : Value}

theorem leaf_judged (hin : v.inside = []) (hheight : v.height = 1)
    (h : Judged (v.body o (depth + 1)) o.maxDepth
      ⟨v.WellKinded, True, v.HeadersFit o.integerArrays⟩ (v.wireLength o.integerArrays)) :
    Judged (v.layout o depth) o.maxDepth (v.needs o depth) (v.wireLength o.integerArrays) := by
  have hformed : v.WellFormed ↔ v.WellKinded := everywhere_leaf hin
  have hsmall : v.Fits o.integerArrays ↔ v.HeadersFit o.integerArrays := everywhere_leaf hin
  refine h.within.congr hformed.symm ?_ hsmall.symm rfl
  simp only [needs, hheight, and_true]
  rfl

theorem entry_judged {e : Value × Value}
    (hk : ∀ d, Judged (e.1.layout o d) o.maxDepth (e.1.needs o d) (e.1.wireLength o.integerArrays))
    (hv : ∀ d, Judged (e.2.layout o d) o.maxDepth (e.2.needs o d) (e.2.wireLength o.integerArrays)) :
    Judged (entryLayout o depth e) o.maxDepth (entryNeeds o depth e)
      (entryLength o.integerArrays e) := by
  refine Judged.of_eq ((hk (depth + 1)).seq (hv (depth + 1))).object.within ?_
  simp [entryLayout]

theorem wellFormed_iff : v.WellFormed ↔ Everywhere WellKinded v := .rfl

theorem wellFormed_pointer : (pointer v).WellFormed ↔ v.WellFormed :=
  everywhere_pointer.trans (and_iff_right trivial)

theorem fits_pointer {arrays : IntegerArrays} : (pointer v).Fits arrays ↔ v.Fits arrays :=
  everywhere_pointer.trans (and_iff_right trivial)

theorem isShape_of_check {j k : Kind} {f : Fault} (h : j.check k = .error f) : f.IsShape := by
  unfold Kind.check at h
  split at h <;> cases h
  trivial

theorem isShape_of_checkEntries {j k : Kind} {es : List (Value × Value)} {f : Fault}
    (h : j.checkEntries k es = .error f) : f.IsShape := by
  induction es with
  | nil => cases h
  | cons e es ih =>
    rw [Kind.checkEntries] at h
    cases hkey : j.check e.1.kind with
    | error g =>
      rw [hkey] at h
      cases h
      exact isShape_of_check hkey
    | ok =>
      cases hvalue : k.check e.2.kind with
      | error g =>
        rw [hkey, hvalue] at h
        cases h
        exact isShape_of_check hvalue
      | ok =>
        rw [hkey, hvalue] at h
        exact ih h

theorem arranged_judged {j : Kind} {es : List (Value × Value)}
    (hkey : ∀ a ∈ es, Judged (a.1.layout o depth) o.maxDepth (a.1.needs o depth)
      (a.1.wireLength o.integerArrays))
    (hentry : ∀ a ∈ es, Judged (entryLayout o depth a) o.maxDepth (entryNeeds o depth a)
      (entryLength o.integerArrays a)) :
    Judged (do
        let arranged ← order o.sortedMaps j Prod.fst (fun e ↦ e.1.layout o depth) es
        let count ← Piece.count es.length
        return Tag.object.asArray :: count ++ (← concat (arranged.map (entryLayout o depth))))
      o.maxDepth
      { Needs.all es (entryNeeds o depth) with
        small := es.length < capacity 4 ∧ (Needs.all es (entryNeeds o depth)).small }
      (1 + (Base128.ofNat es.length).length + (es.map (entryLength o.integerArrays)).sum) := by
  cases harranged : order o.sortedMaps j Prod.fst (fun e ↦ e.1.layout o depth) es with
  | error f =>
    obtain ⟨a, ha, hf⟩ := exists_error_of_order harranged
    have hexplains : (a.1.needs o depth).Explains o.maxDepth f := by
      have hjudged := hkey a ha
      rw [hf] at hjudged
      exact hjudged
    refine hexplains.mono ⟨fun h ↦ (h a ha).1, fun h ↦ ?_, fun h ↦ (h.2 a ha).1.1⟩
    have hlevel := (h a ha).2.1
    simp only [needs]
    omega
  | ok arranged =>
    have hperm := order_perm harranged
    have hrow := Judged.concat fun a ha ↦ hentry a (hperm.mem_iff.mp ha)
    have h := (Judged.ok [Tag.object.asArray]).counted es.length hrow
    refine Judged.of_eq (h.congr ?_ ?_ ?_ ?_) (by simp)
    · simp [Needs.all, hperm.mem_iff]
    · simp [Needs.all, hperm.mem_iff]
    · simp [Needs.all, hperm.mem_iff]
    · rw [(hperm.map _).sum_nat]
      rfl

theorem layout_judged (v : Value) (h : v.CustomFree) (o : Options) (depth : Nat) :
    Judged (v.layout o depth) o.maxDepth (v.needs o depth) (v.wireLength o.integerArrays) := by
  induction v, h using CustomFree.induct generalizing depth with
  | bool b => exact leaf_judged rfl rfl (.ok _)
  | int n => exact leaf_judged rfl rfl (.ok _)
  | float x => exact leaf_judged rfl rfl (.inr (.inl ⟨trivial, id⟩))
  | text s => exact leaf_judged rfl rfl (.text _ s)
  | bytes bs => exact leaf_judged rfl rfl (.bytes _ bs)
  | nil => exact leaf_judged rfl rfl (.ok _)
  | pointer v h ih =>
    have hbody := (Judged.ok [Tag.pointer]).seq (ih h.pointer (depth + 1))
    refine Judged.of_eq (hbody.within.congr ?_ ?_ ?_ rfl) rfl
    · exact (and_iff_right trivial).trans wellFormed_pointer.symm
    · simp only [Needs.and, needs, height, true_and]
      omega
    · exact (and_iff_right trivial).trans fits_pointer.symm
  | object vs h ih =>
    have hfields := Judged.concat fun v hv ↦ ih v hv (h.plain v hv) (depth + 1)
    rw [layout, body_plain]
    refine hfields.object.within.congr ?_ ?_ ?_ ?_
    · exact (everywhere_plain.trans (and_iff_right trivial)).symm
    · simp only [Needs.all, needs, height, ← Nat.add_assoc, Nat.add_right_comm depth _ 1,
        add_heightAll_le]
      rfl
    · simp only [Needs.all, needs, Fits, everywhere_plain, HeadersFit, wireLengthAll_eq]
      exact and_comm
    · rw [wireLength, wireLengthAll_eq]
  | array k vs h ih =>
    cases vs with
    | nil =>
      refine leaf_judged rfl rfl ((Judged.emptyArray k).congr ?_ .rfl ?_ rfl)
      · simp [WellKinded]
      · simp [HeadersFit, capacity]
    | cons v vs =>
      have hitem (w) (hw : w ∈ v :: vs) := Judged.check (x := k.check w.kind) check_eq_ok
        (fun _ ↦ isShape_of_check) (ih w hw (h.array w hw) (depth + 1))
      have hitems := Judged.concat hitem
      rw [layout, body_array_cons, itemBodies_eq]
      refine ((Judged.arrayTag o.integerArrays k).counted (v :: vs).length hitems).within.congr
        ?_ ?_ ?_ ?_
      · simp only [Needs.all, needs, wellFormed_iff, everywhere_array, WellKinded]
        constructor
        · intro hneeds
          obtain ⟨hk, hvs⟩ := hneeds
          exact ⟨⟨hk, fun w hw ↦ (hvs w hw).1⟩, fun w hw ↦ (hvs w hw).2⟩
        · intro hneeds
          obtain ⟨⟨hk, hkinds⟩, hvs⟩ := hneeds
          exact ⟨hk, fun w hw ↦ ⟨hkinds w hw, hvs w hw⟩⟩
      · simp only [Needs.all, needs, height, ← Nat.add_assoc, Nat.add_right_comm depth _ 1,
          add_heightAll_le, true_and]
        rfl
      · simp only [Needs.all, needs, Fits, everywhere_array, HeadersFit, true_and]
      · rw [wireLength, wireLengthAll_eq]
        rfl
  | map j k es h ih =>
    cases es with
    | nil =>
      refine leaf_judged rfl rfl ((Judged.ok _).congr ?_ .rfl ?_ rfl)
      · simp [WellKinded]
      · simp [HeadersFit, capacity]
    | cons e es =>
      have hkey (a) (ha : a ∈ e :: es) := (ih a ha).1 (h.map a ha).1
      have hentry (a) (ha : a ∈ e :: es) :
          Judged (entryLayout o (depth + 1) a) o.maxDepth _ _ :=
        entry_judged (hkey a ha) ((ih a ha).2 (h.map a ha).2)
      rw [layout, body_map_cons]
      refine ((arranged_judged (fun a ha ↦ hkey a ha _) hentry).check checkEntries_eq_ok
        fun _ ↦ isShape_of_checkEntries).within.congr ?_ ?_ ?_ ?_
      · simp only [Needs.all, entryNeeds, needs, wellFormed_iff, everywhere_map, WellKinded]
      · simp only [Needs.all, entryNeeds, needs, height, ← Nat.add_assoc,
          Nat.add_right_comm depth _ 1, add_heightEntries_le]
        constructor
        · intro hneeds
          obtain ⟨hd, hes⟩ := hneeds
          exact ⟨hd, fun a ha ↦ (hes a ha).2⟩
        · intro hneeds
          obtain ⟨hd, hes⟩ := hneeds
          refine ⟨hd, fun a ha ↦ ⟨?_, hes a ha⟩⟩
          have hlevel := (hes a ha).1
          omega
      · simp only [Needs.all, entryNeeds, needs, Fits, everywhere_map, HeadersFit]
        constructor
        · intro hneeds
          obtain ⟨hcount, hes⟩ := hneeds
          exact ⟨⟨hcount, fun a ha ↦ (hes a ha).2⟩, fun a ha ↦ (hes a ha).1⟩
        · intro hneeds
          obtain ⟨⟨hcount, hsizes⟩, hes⟩ := hneeds
          exact ⟨hcount, fun a ha ↦ ⟨hes a ha, hsizes a ha⟩⟩
      · rw [wireLength, wireLengthEntries_eq]
        rfl

end Value

end TaggedWire
