import TaggedWire.Encoder.Write
import TaggedWire.Layout

namespace TaggedWire

theorem IntKind.width_mem (k : IntKind) : k.width ∈ Base128.widths := by
  cases k <;> decide

namespace Integer

theorem fitsSigned (n : Integer) (h : n.kind.signed) :
    Base128.FitsSigned n.kind.width n.val := by
  have hlow := n.lowest_le
  have hhigh := n.le_highest
  simp only [IntKind.lowest, IntKind.highest, h, ↓reduceIte] at hlow hhigh
  exact ⟨hlow, by omega⟩

theorem toNat_lt_capacity (n : Integer) (h : n.kind.signed = false) :
    n.val.toNat < capacity n.kind.width := by
  have hlow := n.lowest_le
  have hhigh := n.le_highest
  simp only [IntKind.lowest, IntKind.highest, h, Bool.false_eq_true, ↓reduceIte] at hlow hhigh
  omega

end Integer

theorem Kind.code_int (k : IntKind) : (int k).code = .ok (Tag.ofInt k) := by
  cases k <;> rfl

namespace Write

@[simp] theorem put_seq (xs ys : List UInt8) : (do put xs; put ys : Write) = put (xs ++ ys) := by
  funext e
  simp [put, bind, EStateM.bind]

theorem forM_put {α : Type} (f : α → List UInt8) (as : List α) :
    forM as (fun a ↦ put (f a)) = put (as.flatMap f) := by
  induction as with
  | nil =>
    funext e
    simp only [List.flatMap_nil, put, Encoder.put_nil]
    rfl
  | cons a as ih => rw [List.forM_cons, ih, put_seq, List.flatMap_cons]

theorem unsigned_eq {width n : Nat} (hw : width ∈ Base128.widths) (hn : n < capacity width) :
    unsigned width n = put (Base128.ofNat n) := by
  rw [unsigned, Base128.writeNat, if_neg (not_not_intro hw), if_neg (Nat.not_le.mpr hn)]
  rfl

theorem signed_eq {width : Nat} {v : Int} (hw : width ∈ Base128.widths)
    (hv : Base128.FitsSigned width v) : signed width v = put (Base128.ofInt v) := by
  rw [signed, Base128.writeInt, if_neg (not_not_intro hw), if_neg (not_not_intro hv)]
  rfl

theorem native_int (k : IntKind) (write : Nat → Write) :
    native (.int k) write = (do put [Tag.ofInt k]; write k.width) := by
  simp only [native, Kind.width?, Kind.code_int]
  rfl

theorem count_eq (n : Nat) : count n = send (Piece.count n) := by
  unfold count Piece.count
  split
  · exact unsigned_eq (by decide) ‹_›
  · rfl

theorem byte_eq (b : UInt8) : byte b = put (Piece.byte b) := by
  unfold byte Piece.byte
  split
  · rfl
  · exact put_seq ..

theorem native_signed {n : Integer} (hs : n.kind.signed) (hw : n.kind.width ≠ 1) :
    native (.int n.kind) (signed · n.val) = put (Tag.ofInt n.kind :: Piece.payload n) := by
  rw [native_int, signed_eq n.kind.width_mem (n.fitsSigned hs), put_seq, Piece.payload, if_neg hw,
    if_pos hs]
  rfl

theorem native_unsigned {n : Integer} (hs : n.kind.signed = false) (hw : n.kind.width ≠ 1) :
    native (.int n.kind) (unsigned · n.val.toNat) =
      put (Tag.ofInt n.kind :: Piece.payload n) := by
  rw [native_int, unsigned_eq n.kind.width_mem (n.toNat_lt_capacity hs), put_seq, Piece.payload,
    if_neg hw, hs]
  rfl

theorem toUInt8_ofInt (v : Int) : (Int8.ofInt v).toUInt8 = (v % 256).toNat.toUInt8 := by
  apply UInt8.toNat_inj.mp
  have hmod : (v % 256).toNat < 256 := by omega
  calc
    (Int8.ofInt v).toUInt8.toNat = (BitVec.ofInt 8 v).toNat := rfl
    _ = (v % 256).toNat := by rw [BitVec.toNat_ofInt]; rfl
    _ = (v % 256).toNat.toUInt8.toNat := by simp [Nat.mod_eq_of_lt hmod]

/-- An integer other than zero: none of the checks on the way refuses it. -/
theorem integer_eq {n : Integer} (h : n.val ≠ 0) :
    integer n = put (Tag.ofInt n.kind :: Piece.payload n) := by
  rcases n with ⟨k, v, hlow, hhigh⟩
  cases k with
  | i8 =>
    rw [integer, toUInt8_ofInt, put_seq]
    rfl
  | u8 =>
    have hlow : 0 ≤ v := hlow
    have hhigh : v ≤ 255 := hhigh
    have hmod : v % 256 = v := by omega
    have hb : v.toNat.toUInt8 ≠ 0 := by
      have hv : v ≠ 0 := h
      rw [Ne, ← UInt8.toNat_inj]
      simpa using (show v.toNat % 256 ≠ 0 by omega)
    rw [integer, byte_eq, Piece.byte, if_neg hb, Piece.payload, hmod]
    rfl
  | i16 | i32 | i64 => exact native_signed rfl (by simp [IntKind.width])
  | u16 | u32 | u64 => exact native_unsigned rfl (by simp [IntKind.width])

theorem frame_eq (payload : List UInt8) : frame payload = send (Piece.object payload) := by
  by_cases h : Frame.size payload < capacity Frame.headerSize
  · rw [Piece.object, if_pos h]
    refine (if_pos h).trans ?_
    simp only [put_seq, Frame.around, List.cons_append, List.nil_append, List.append_assoc]
    rfl
  · rw [Piece.object, if_neg h]
    exact if_neg h

theorem integersTag_eq (k : IntKind) : integersTag (.ok (Tag.ofInt k)) =
    (do put (Piece.integerArrayTag (← get).options.integerArrays k)) := by
  funext e
  change (if e.options.integerArrays = .tagged then put [(Tag.ofInt k).asArray] else pure ()) e =
    put (Piece.integerArrayTag e.options.integerArrays k) e
  cases e.options.integerArrays with
  | untagged =>
    rw [Piece.integerArrayTag, put, e.put_nil]
    rfl
  | tagged => rfl

theorem arrayTag_eq (k : Kind) :
    arrayTag k = (do send (Piece.arrayTag (← get).options.integerArrays k)) := by
  cases k with
  | int k =>
    rw [arrayTag, Kind.code_int, integersTag_eq]
    rfl
  | _ => rfl

theorem check_eq (k : Kind) (v : Value) : check k v = lift (k.check v.kind) := by
  unfold check Kind.check
  split <;> rfl

theorem checkEntries_eq (j k : Kind) (es : List (Value × Value)) :
    (forM es fun e ↦ do check j e.1; check k e.2) = lift (j.checkEntries k es) := by
  induction es with
  | nil => rfl
  | cons e es ih =>
    obtain ⟨v, w⟩ := e
    rw [List.forM_cons, ih, Kind.checkEntries, check_eq, check_eq]
    cases j.check v.kind with
    | error f => rfl
    | ok u =>
      cases k.check w.kind <;> rfl

end Write

namespace Value

open Write

theorem emit_int (n : Integer) : (int n).emit = put (Piece.integer n) := by
  change unlessZero (int n) (integer n) = _
  by_cases h : n.val = 0
  · simp [unlessZero, isZero, h, emptyTag, kind, Kind.code_int, Piece.integer, lift]
  · simp [unlessZero, isZero, h, integer_eq, Piece.integer]

theorem emit_float (x : FloatBits) :
    (float x).emit = throw (.fault (.unsupported (.float x.kind))) := by
  change unlessZero (float x) _ = _
  unfold unlessZero
  split
  · cases x <;> rfl
  · rfl

theorem emit_text (s : String) : (text s).emit =
    if s.isEmpty then put [Tag.text.asArray.asEmpty]
    else (do
      put [Tag.text.asArray]
      send (Piece.count (Utf16.encode s.toList).length)
      put (Utf16.bytes (Utf16.encode s.toList))) := by
  change unlessZero (text s) (Write.text s) = _
  simp only [Write.text, count_eq, List.forM_eq_forM, forM_put]
  rfl

theorem emit_bytes (bs : List UInt8) : (bytes bs).emit =
    if bs.isEmpty then put [Tag.u8.asArray.asEmpty]
    else (do
      put (Piece.integerArrayTag (← get).options.integerArrays .u8)
      send (Piece.count bs.length)
      put (bs.flatMap Piece.byte)) := by
  have hbyte : byte = fun b ↦ put (Piece.byte b) := funext byte_eq
  have htag : integersTag (.ok Tag.u8) = _ := integersTag_eq .u8
  change unlessZero (bytes bs) (Write.bytes bs) = _
  simp only [Write.bytes, htag, count_eq, hbyte, List.forM_eq_forM, forM_put]
  rfl

theorem emit_array (k : Kind) (items : List Value) : (array k items).emit =
    if items.isEmpty then send (Piece.emptyArray k)
    else (do
      send (Piece.arrayTag (← get).options.integerArrays k)
      send (Piece.count items.length)
      emitItems k items) := by
  have hempty : (do put [(← lift (array k items).emptyTag).asEmpty]) =
      send (Piece.emptyArray k) := by
    cases k with
    | int k => cases k <;> rfl
    | _ => rfl
  rw [emit, unlessZero, hempty, arrayTag_eq, count_eq]
  rfl

theorem emit_map (j k : Kind) (es : List (Value × Value)) : (map j k es).emit =
    if es.isEmpty then put [Tag.object.asArray.asEmpty]
    else (do
      lift (j.checkEntries k es)
      let arranged ← arrange j Entry.key Entry.encoding (emitEntries es)
      put [Tag.object.asArray]
      send (Piece.count es.length)
      forM arranged (·.whole)) := by
  rw [emit, List.forM_eq_forM, checkEntries_eq, count_eq]
  rfl

end Value

end TaggedWire
