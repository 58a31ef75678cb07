import TaggedWire.Proofs.Delimiting
import TaggedWire.Proofs.Refinement

namespace TaggedWire

open Layout

variable {o o' : Options} {d : Nat} {k : IntKind} {r s x y : List UInt8}

namespace Piece

/-- An array of integers of kind `k` without a tag: an empty one is the byte that stands for it,
and any other opens with its count. -/
def untagged (k : IntKind) (ns : List Integer) : List UInt8 :=
  if ns.isEmpty then [(Tag.ofInt k).asArray.asEmpty]
  else Base128.ofNat ns.length ++ ns.flatMap integer

/-- The count `n` opens with the byte that stands for an empty array. -/
def LooksEmpty (k : IntKind) (n : Nat) : Prop :=
  128 ≤ n ∧ n % 128 + 128 = (Tag.ofInt k).asArray.asEmpty.toNat

theorem untagged_cons (k : IntKind) (n : Integer) (ns : List Integer) :
    untagged k (n :: ns) = Base128.ofNat (n :: ns).length ++ (n :: ns).flatMap integer := rfl

theorem ofNat_head_iff {n : Nat} {bs : List UInt8} :
    (∃ cs, Base128.ofNat n ++ bs = (Tag.ofInt k).asArray.asEmpty :: cs) ↔ LooksEmpty k n := by
  have htag : 128 ≤ (Tag.ofInt k).asArray.asEmpty.toNat := by cases k <;> decide
  have hhead (b : UInt8) (l : List UInt8) :
      (∃ cs, b :: l = (Tag.ofInt k).asArray.asEmpty :: cs) ↔
        b.toNat = (Tag.ofInt k).asArray.asEmpty.toNat := by
    simp [UInt8.toNat_inj]
  rw [LooksEmpty, Base128.ofNat]
  split
  · rw [List.cons_append, hhead, Base128.toNat_toUInt8 (by omega)]
    omega
  · rw [List.cons_append, hhead, Base128.toNat_toUInt8 (by omega)]
    omega

theorem untagged_append_inj {ms ns : List Integer} (h : untagged k ms ++ r = untagged k ns ++ s) :
    ms = ns ∧ r = s ∨ ms = [] ∧ LooksEmpty k ns.length ∨ ns = [] ∧ LooksEmpty k ms.length := by
  cases ms with
  | nil =>
    cases ns with
    | nil => exact .inl ⟨rfl, List.append_cancel_left h⟩
    | cons n ns =>
      rw [untagged_cons, List.append_assoc] at h
      exact .inr (.inl ⟨rfl, ofNat_head_iff.mp ⟨_, h.symm⟩⟩)
  | cons m ms =>
    rw [untagged_cons, List.append_assoc] at h
    cases ns with
    | nil => exact .inr (.inr ⟨rfl, ofNat_head_iff.mp ⟨_, h⟩⟩)
    | cons n ns =>
      rw [untagged_cons, List.append_assoc] at h
      obtain ⟨hlength, hitems⟩ := Base128.ofNat_append_inj h
      exact .inl (integers_append_inj hlength hitems)

theorem untagged_nil_append (ns : List Integer) (h : LooksEmpty k ns.length) :
    ∃ r, untagged k [] ++ r = untagged k ns := by
  cases ns with
  | nil => exact absurd h.1 (by decide)
  | cons n ns =>
    obtain ⟨r, hr⟩ := ofNat_head_iff.mpr h
    exact ⟨r, hr.symm⟩

end Piece

namespace Value

theorem exists_integers {ms : List Value} (h : ∀ v ∈ ms, v.kind = .int k) :
    ∃ ns : List Integer, ns.map int = ms := by
  induction ms with
  | nil => exact ⟨[], rfl⟩
  | cons v ms ih =>
    obtain ⟨hv, hms⟩ := List.forall_mem_cons.mp h
    obtain ⟨ns, rfl⟩ := ih hms
    cases v with
    | int n => exact ⟨n :: ns, rfl⟩
    | _ => cases hv

theorem concat_integers {ns : List Integer}
    (h : concat ((ns.map int).map fun v ↦ v.layout o d) = .ok x) : ns.flatMap Piece.integer = x := by
  induction ns generalizing x with
  | nil =>
    cases h
    rfl
  | cons n ns ih =>
    simp only [List.map_cons, concat_cons, bind_eq_ok, pure_eq_ok] at h
    obtain ⟨y, hy, z, hz, rfl⟩ := h
    obtain ⟨-, hy⟩ := layout_eq_ok.mp hy
    cases hy
    rw [List.flatMap_cons, ih hz]

theorem body_integers {ns : List Integer} (ho : o.integerArrays = .untagged)
    (h : (array (.int k) (ns.map int)).body o d = .ok x) : x = Piece.untagged k ns := by
  cases ns with
  | nil =>
    cases h
    rfl
  | cons n ns =>
    obtain ⟨tag, rest, htag, -, -, hrest, rfl⟩ := body_array_cons_eq_ok.mp h
    rw [ho] at htag
    cases htag
    rw [Piece.untagged_cons, concat_integers hrest, Piece.integerArrayTag, List.nil_append,
      ← List.map_cons, List.length_map]

theorem flatMap_byte {bs : List UInt8} {ns : List Integer} (h : bs.map ofByte = ns.map int) :
    bs.flatMap Piece.byte = ns.flatMap Piece.integer := by
  induction bs generalizing ns with
  | nil =>
    obtain rfl := List.map_eq_nil_iff.mp h.symm
    rfl
  | cons b bs ih =>
    obtain ⟨n, ns, rfl, hn, hns⟩ := List.map_eq_cons_iff.mp h.symm
    obtain ⟨m, hm, hb⟩ := Piece.byte_eq b
    rw [hm] at hn
    cases hn
    rw [List.flatMap_cons, List.flatMap_cons, hb, ih hns.symm]

theorem body_bytes {bs : List UInt8} {ns : List Integer} (ho : o.integerArrays = .untagged)
    (hns : bs.map ofByte = ns.map int) (h : (bytes bs).body o d = .ok x) :
    x = Piece.untagged .u8 ns := by
  have hlength : bs.length = ns.length := by simpa using congrArg List.length hns
  rw [body, ho] at h
  cases bs with
  | nil =>
    obtain rfl := List.map_eq_nil_iff.mp hns.symm
    cases h
    rfl
  | cons b bs =>
    obtain ⟨n, ns, rfl⟩ := List.exists_cons_of_length_eq_add_one hlength.symm
    rw [Layout.bytes, if_neg (by simp)] at h
    simp only [bind_eq_ok, pure_eq_ok, Piece.count_eq_ok] at h
    obtain ⟨_, ⟨-, rfl⟩, rfl⟩ := h
    rw [Piece.untagged_cons, flatMap_byte hns, hlength, Piece.integerArrayTag, List.nil_append]

theorem asArray_eq_integers {a : Value} {vs : List Value} (h : a.asArray = array (.int k) vs) :
    a = array (.int k) vs ∨ ∃ bs, a = bytes bs ∧ .u8 = k ∧ bs.map ofByte = vs := by
  cases a with
  | bytes bs =>
    simp only [asArray, array.injEq, Kind.int.injEq] at h
    exact .inr ⟨bs, rfl, h⟩
  | array => exact .inl h
  | _ => simp [asArray] at h

theorem encode_integers {a : Value} {vs : List Value} (ha : a.asArray = array (.int k) vs)
    (hvs : ∀ v ∈ vs, v.kind = .int k) (ho : o.integerArrays = .untagged)
    (h : a.encode o = .ok x) : ∃ ns, vs = ns.map int ∧ x = Piece.untagged k ns := by
  obtain ⟨ns, rfl⟩ := exists_integers hvs
  refine ⟨ns, rfl, ?_⟩
  obtain rfl | ⟨bs, rfl, rfl, hns⟩ := asArray_eq_integers ha
  · have hfree : (array (.int k) (ns.map int)).CustomFree :=
      customFree_array.mpr <| List.forall_mem_map.mpr fun n _ ↦
        customFree_iff.mpr ((everywhere_leaf rfl).mpr rfl)
    exact body_integers ho (body_of_encode hfree h)
  · have hfree : (bytes bs).CustomFree := customFree_iff.mpr ((everywhere_leaf rfl).mpr rfl)
    exact body_bytes ho hns (body_of_encode hfree h)

/-- Without its tag an array of integers still tells its items and where it ends, but that an empty
one cannot be told from a count that opens with the same byte. -/
theorem encode_integers_append_inj {a b : Value} {vs ws : List Value}
    (ha : a.asArray = array (.int k) vs) (hb : b.asArray = array (.int k) ws)
    (hvs : ∀ v ∈ vs, v.kind = .int k) (hws : ∀ w ∈ ws, w.kind = .int k)
    (ho : o.integerArrays = .untagged) (ho' : o'.integerArrays = .untagged)
    (hx : a.encode o = .ok x) (hy : b.encode o' = .ok y) :
    (∀ r s, x ++ r = y ++ s →
      vs = ws ∧ r = s ∨ vs = [] ∧ Piece.LooksEmpty k ws.length ∨
        ws = [] ∧ Piece.LooksEmpty k vs.length) ∧
    (vs = [] → Piece.LooksEmpty k ws.length → ∃ r, x ++ r = y) := by
  obtain ⟨ms, rfl, rfl⟩ := encode_integers ha hvs ho hx
  obtain ⟨ns, rfl, rfl⟩ := encode_integers hb hws ho' hy
  refine ⟨fun r s h ↦ ?_, fun hempty hlooks ↦ ?_⟩
  · simpa using (Piece.untagged_append_inj h).imp_left (And.imp_left (congrArg (List.map int)))
  · obtain rfl := List.map_eq_nil_iff.mp hempty
    exact Piece.untagged_nil_append ns (by simpa using hlooks)

/-- A byte string and the array of its bytes have one form and hold the same items. -/
theorem bytes_told_as_array :
    let a := bytes [7, 0]
    let b := array (.int .u8) [ofByte 7, ofByte 0]
    a.encode {} = .ok [0x02, 0x04, 0x07, 0x84] ∧ b.encode {} = .ok [0x02, 0x04, 0x07, 0x84] ∧
      a ≠ b ∧ a.asArray = b := by
  intro a b
  have ha : a.encode {} = .ok [0x02, 0x04, 0x07, 0x84] := eq_ok_of_toOption (by decide +kernel)
  have hb : b.encode {} = .ok [0x02, 0x04, 0x07, 0x84] := eq_ok_of_toOption (by decide +kernel)
  have hkinds : ∀ v ∈ [ofByte 7, ofByte 0], v.kind = .int .u8 := by simp [ofByte, kind]
  have h := encode_integers_append_inj (a := a) (b := b) rfl rfl hkinds hkinds rfl rfl ha hb
  obtain ⟨hitems, -⟩ | ⟨hempty, -⟩ | ⟨hempty, -⟩ := h.1 [] [] rfl
  · exact ⟨ha, hb, by simp [a, b], congrArg (array (.int .u8)) hitems⟩
  · cases hempty
  · cases hempty

/-- The count of 196 zeros opens with the byte that is all of an empty array. -/
theorem zeros_open_as_empty :
    let empty := array (.int .u8) []
    let zeros := array (.int .u8) (List.replicate 196 (ofByte 0))
    let rest := 0x01 :: List.replicate 196 0x84
    empty.encode {} = .ok [0xC4] ∧ zeros.encode {} = .ok (0xC4 :: rest) ∧
      [0xC4] ++ rest = (0xC4 :: rest) ++ [] ∧ empty ≠ zeros := by
  intro empty zeros rest
  exact ⟨eq_ok_of_toOption (by decide +kernel), eq_ok_of_toOption (by decide +kernel),
    (List.append_nil _).symm, by simp [empty, zeros]⟩

end Value

end TaggedWire
