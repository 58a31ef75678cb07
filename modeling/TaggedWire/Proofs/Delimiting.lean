import TaggedWire.Proofs.Base128
import TaggedWire.Proofs.Opening
import TaggedWire.Proofs.Parts
import TaggedWire.Value.Rebuild

namespace TaggedWire

variable {r s x y : List UInt8}

theorem map_eq_of_flatMap {α γ : Type} {f : α → List UInt8} {g : α → γ} {as bs : List α}
    (hf : ∀ a ∈ as, ∀ b ∈ bs, ∀ r s, f a ++ r = f b ++ s → g a = g b ∧ r = s)
    (hl : as.length = bs.length) (h : as.flatMap f ++ r = bs.flatMap f ++ s) :
    as.map g = bs.map g ∧ r = s := by
  induction as generalizing bs with
  | nil =>
    obtain rfl := List.length_eq_zero_iff.mp hl.symm
    exact ⟨rfl, h⟩
  | cons a as ih =>
    obtain ⟨b, bs, rfl⟩ := List.exists_cons_of_length_eq_add_one hl.symm
    rw [List.flatMap_cons, List.flatMap_cons, List.append_assoc, List.append_assoc] at h
    obtain ⟨hab, hrest⟩ := hf a List.mem_cons_self b List.mem_cons_self _ _ h
    obtain ⟨hmap, hr⟩ := ih (fun c hc d hd ↦ hf c (.tail a hc) d (.tail b hd)) (Nat.succ.inj hl) hrest
    exact ⟨by rw [List.map_cons, List.map_cons, hab, hmap], hr⟩

namespace Integer

theorem eq_of_val {m n : Integer} (hk : m.kind = n.kind) (hv : m.val = n.val) : m = n := by
  cases m
  cases n
  cases hk
  cases hv
  rfl

theorem val_sub_lt {m n : Integer} (hk : m.kind = n.kind) :
    m.val - n.val < capacity n.kind.width := by
  have hm := m.le_highest
  have hn := n.lowest_le
  rw [hk] at hm
  unfold IntKind.highest at hm
  unfold IntKind.lowest at hn
  split at hm <;> simp_all <;> omega

theorem nonneg_of_unsigned {n : Integer} (h : n.kind.signed = false) : 0 ≤ n.val := by
  simpa [IntKind.lowest, h] using n.lowest_le

end Integer

namespace Piece

theorem payload_append_inj {m n : Integer} (hk : m.kind = n.kind)
    (h : payload m ++ r = payload n ++ s) : m = n ∧ r = s := by
  suffices hv : m.val = n.val ∧ r = s from ⟨Integer.eq_of_val hk hv.1, hv.2⟩
  have hmn := Integer.val_sub_lt hk
  have hnm := Integer.val_sub_lt hk.symm
  simp only [payload, hk] at h hmn hnm
  by_cases hw : n.kind.width = 1
  · simp only [if_pos hw, List.cons_append, List.nil_append, List.cons.injEq] at h
    have hb := congrArg UInt8.toNat h.1
    rw [Base128.toNat_toUInt8 (by omega), Base128.toNat_toUInt8 (by omega)] at hb
    have hcap : capacity n.kind.width = 256 := by rw [hw]; rfl
    exact ⟨by omega, h.2⟩
  · cases hs : n.kind.signed
    · simp only [if_neg hw, hs, Bool.false_eq_true, ↓reduceIte] at h
      have hm := Integer.nonneg_of_unsigned (hk ▸ hs)
      have hn := Integer.nonneg_of_unsigned hs
      obtain ⟨hv, hr⟩ := Base128.ofNat_append_inj h
      exact ⟨by omega, hr⟩
    · simp only [if_neg hw, hs, ↓reduceIte] at h
      exact Base128.ofInt_append_inj h

end Piece

namespace Frame

theorem around_append_inj {p q : List UInt8} (hp : size p < capacity headerSize)
    (hq : size q < capacity headerSize) (h : around p ++ r = around q ++ s) : p = q ∧ r = s := by
  simp only [around, List.cons_append, List.append_assoc, List.cons.injEq, true_and] at h
  obtain ⟨hheader, hrest⟩ := List.append_inj h (by simp)
  have hsize := congrArg readLE hheader
  rw [readLE_writeLE, readLE_writeLE, Nat.mod_eq_of_lt hp, Nat.mod_eq_of_lt hq] at hsize
  simp only [List.cons.injEq, true_and] at hrest
  obtain ⟨rfl, hend⟩ := List.append_inj hrest (by simp only [size] at hsize; omega)
  simpa using hend

theorem map_eq_of_flatMap_around {α : Type} {f : α → List UInt8} {as bs : List α}
    (ha : ∀ a ∈ as, size (f a) < capacity headerSize)
    (hb : ∀ b ∈ bs, size (f b) < capacity headerSize) (hl : as.length = bs.length)
    (h : (as.flatMap fun a ↦ around (f a)) = bs.flatMap fun b ↦ around (f b)) :
    as.map f = bs.map f := by
  have hf (a) (hmem : a ∈ as) (b) (hmem' : b ∈ bs) (r s : List UInt8) :=
    around_append_inj (r := r) (s := s) (ha a hmem) (hb b hmem')
  exact (map_eq_of_flatMap hf hl (congrArg (· ++ []) h)).1

end Frame

namespace Utf16

@[simp] theorem bytes_cons (u : UInt16) (units : List UInt16) :
    bytes (u :: units) = u.toUInt8 :: (u >>> 8).toUInt8 :: bytes units := rfl

@[simp] theorem encode_cons (c : Char) (cs : List Char) :
    encode (c :: cs) = ofChar c ++ encode cs := rfl

theorem toUInt16_bytes (u : UInt16) :
    (u.toUInt8.toNat + 256 * (u >>> 8).toUInt8.toNat).toUInt16 = u := by
  apply UInt16.toNat_inj.mp
  have hu := u.toNat_lt
  simp [Nat.shiftRight_eq_div_pow]
  omega

theorem takeUnits_bytes (units : List UInt16) (rest : List UInt8) :
    takeUnits units.length (bytes units ++ rest) = some (units, rest) := by
  induction units with
  | nil => rfl
  | cons u units ih =>
    simp only [bytes_cons, List.cons_append, List.length_cons, takeUnits]
    rw [ih, Option.map_some, toUInt16_bytes]

theorem bytes_append_inj {us vs : List UInt16} (hl : us.length = vs.length)
    (h : bytes us ++ r = bytes vs ++ s) : us = vs ∧ r = s := by
  have hu := takeUnits_bytes us r
  rw [h, hl, takeUnits_bytes vs s] at hu
  cases hu
  exact ⟨rfl, rfl⟩

theorem toNat_toUInt16 {n : Nat} (h : n < 0x10000) : n.toUInt16.toNat = n := by
  simp [Nat.mod_eq_of_lt h]

theorem isSurrogate_iff (u : UInt16) :
    isSurrogate u = true ↔ 0xD800 ≤ u.toNat ∧ u.toNat < 0xE000 := by
  simp [isSurrogate]

theorem decode_cons_of_not_surrogate {u : UInt16} (h : isSurrogate u = false)
    (units : List UInt16) :
    decode (u :: units) = (decode units).map (Char.ofNat u.toNat :: ·) := by
  cases units <;> simp [decode, h]

theorem decode_ofChar (c : Char) (units : List UInt16) :
    decode (ofChar c ++ units) = (decode units).map (c :: ·) := by
  have hvalid : c.toNat < 0xD800 ∨ 0xDFFF < c.toNat ∧ c.toNat < 0x110000 := c.valid
  by_cases hc : c.toNat < 0x10000
  · have hu := toNat_toUInt16 hc
    have hs : isSurrogate c.toNat.toUInt16 = false := by
      rw [← Bool.not_eq_true, isSurrogate_iff, hu]
      omega
    rw [ofChar, if_pos hc, List.singleton_append, decode_cons_of_not_surrogate hs, hu,
      Char.ofNat_toNat]
  · obtain ⟨n, hn, hlt⟩ : ∃ n, c.toNat = 0x10000 + n ∧ n < 0x100000 :=
      ⟨c.toNat - 0x10000, by omega, by omega⟩
    have hhigh := toNat_toUInt16 (by omega : 0xD800 + n / 0x400 < 0x10000)
    have hlow := toNat_toUInt16 (by omega : 0xDC00 + n % 0x400 < 0x10000)
    have hs : isSurrogate (0xD800 + n / 0x400).toUInt16 := by
      rw [isSurrogate_iff, hhigh]
      omega
    have hback : 0x10000 + (0xD800 + n / 0x400 - 0xD800) * 0x400 +
        (0xDC00 + n % 0x400 - 0xDC00) = c.toNat := by omega
    have hpair : 0xD800 + n / 0x400 < 0xDC00 ∧ 0xDC00 ≤ 0xDC00 + n % 0x400 ∧
        0xDC00 + n % 0x400 < 0xE000 := by omega
    have hsub : c.toNat - 0x10000 = n := by omega
    simp only [ofChar, if_neg hc, hsub, List.cons_append, List.nil_append, decode, hs, hhigh, hlow,
      Bool.not_true, Bool.false_eq_true, ↓reduceIte, if_pos hpair, hback, Char.ofNat_toNat]

theorem decode_encode (cs : List Char) : decode (encode cs) = some cs := by
  induction cs with
  | nil => rfl
  | cons c cs ih => rw [encode_cons, decode_ofChar, ih, Option.map_some]

theorem encode_injective {cs ds : List Char} (h : encode cs = encode ds) : cs = ds := by
  have hc := decode_encode cs
  rw [h, decode_encode] at hc
  exact (Option.some.inj hc).symm

end Utf16

theorem Opening.eq_of_append {v w : Value} (hv : ∃ rest, x = v.opening.tag :: rest)
    (hw : ∃ rest, y = w.opening.tag :: rest) (h : x ++ r = y ++ s) : v.opening = w.opening := by
  obtain ⟨xs, rfl⟩ := hv
  obtain ⟨ys, rfl⟩ := hw
  exact tag_injective (List.head_eq_of_cons_eq h)

namespace Piece

theorem integer_append_inj {m n : Integer} (h : integer m ++ r = integer n ++ s) :
    m = n ∧ r = s := by
  have ho := Opening.eq_of_append (integer_cons m) (integer_cons n) h
  simp only [Value.opening, Opening.int.injEq] at ho
  obtain ⟨hk, hzero⟩ := ho
  have hz : m.val = 0 ↔ n.val = 0 := by rw [← beq_iff_eq, hzero, beq_iff_eq]
  by_cases hn : n.val = 0
  · have hm := hz.mpr hn
    simp only [integer, hm, hn, hk, ↓reduceIte] at h
    exact ⟨Integer.eq_of_val hk (hm.trans hn.symm), by simpa using h⟩
  · have hm := mt hz.mp hn
    simp only [integer, hm, hn, hk, ↓reduceIte, List.cons_append, List.cons.injEq, true_and] at h
    exact payload_append_inj hk h

theorem byte_eq (b : UInt8) :
    ∃ n, Value.ofByte b = .int n ∧ byte b = integer n := by
  refine ⟨_, rfl, ?_⟩
  have hzero : (b.toNat : Int) = 0 ↔ b = 0 := by
    rw [Int.natCast_eq_zero, ← UInt8.toNat_inj]
    rfl
  unfold byte integer
  split
  · rw [if_pos (hzero.mpr ‹_›)]
    rfl
  · have hpayload : ((b.toNat : Int) % 256).toNat.toUInt8 = b := by
      apply UInt8.toNat_inj.mp
      have hb := b.toNat_lt
      rw [Base128.toNat_toUInt8] <;> omega
    rw [if_neg (mt hzero.mp ‹_›)]
    simp only [payload, IntKind.width, ↓reduceIte, hpayload, Tag.ofInt]

theorem byte_append_inj {b c : UInt8} (h : byte b ++ r = byte c ++ s) : b = c ∧ r = s := by
  obtain ⟨m, hm, hb⟩ := byte_eq b
  obtain ⟨n, hn, hc⟩ := byte_eq c
  rw [hb, hc] at h
  obtain ⟨rfl, hr⟩ := integer_append_inj h
  have hval : (b.toNat : Int) = c.toNat := by
    rw [← hn] at hm
    simpa [Value.ofByte] using hm
  exact ⟨UInt8.toNat_inj.mp (Int.ofNat_inj.mp hval), hr⟩

theorem bytes_append_inj {bs cs : List UInt8} (hl : bs.length = cs.length)
    (h : bs.flatMap byte ++ r = cs.flatMap byte ++ s) : bs = cs ∧ r = s := by
  simpa using map_eq_of_flatMap (g := id) (fun _ _ _ _ _ _ ↦ byte_append_inj) hl h

theorem integers_append_inj {ms ns : List Integer} (hl : ms.length = ns.length)
    (h : ms.flatMap integer ++ r = ns.flatMap integer ++ s) : ms = ns ∧ r = s := by
  simpa using map_eq_of_flatMap (g := id) (fun _ _ _ _ _ _ ↦ integer_append_inj) hl h

end Piece

namespace Layout

theorem text_eq_ok {t : String} : text t = .ok x ↔
    t.isEmpty ∧ [Tag.text.asArray.asEmpty] = x ∨
      ¬ t.isEmpty ∧ (Utf16.encode t.toList).length < capacity 4 ∧
        Tag.text.asArray :: Base128.ofNat (Utf16.encode t.toList).length ++
          Utf16.bytes (Utf16.encode t.toList) = x := by
  unfold text
  split
  · simp [*]
  · simp only [bind_eq_ok, pure_eq_ok, Piece.count_eq_ok, and_assoc, exists_and_left,
      exists_eq_left', *]
    simp

theorem text_append_inj {t u : String} (ht : text t = .ok x) (hu : text u = .ok y)
    (h : x ++ r = y ++ s) : t = u ∧ r = s := by
  have ho := Opening.eq_of_append (text_cons ht) (text_cons hu) h
  simp only [Value.opening, Opening.text.injEq] at ho
  obtain ⟨hte, rfl⟩ | ⟨hte, -, rfl⟩ := text_eq_ok.mp ht
  · obtain ⟨hue, rfl⟩ | ⟨hue, -, rfl⟩ := text_eq_ok.mp hu
    · rw [String.isEmpty_iff] at hte hue
      exact ⟨hte.trans hue.symm, List.append_cancel_left h⟩
    · exact absurd (ho ▸ hte) hue
  · obtain ⟨hue, rfl⟩ | ⟨hue, -, rfl⟩ := text_eq_ok.mp hu
    · exact absurd (ho ▸ hue) hte
    · simp only [List.cons_append, List.append_assoc, List.cons.injEq, true_and] at h
      obtain ⟨hlength, hbytes⟩ := Base128.ofNat_append_inj h
      obtain ⟨hunits, hrest⟩ := Utf16.bytes_append_inj hlength hbytes
      exact ⟨String.toList_inj.mp (Utf16.encode_injective hunits), hrest⟩

end Layout

end TaggedWire
