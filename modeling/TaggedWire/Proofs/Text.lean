import TaggedWire.Proofs.Delimiting
import TaggedWire.Proofs.Refinement
import TaggedWire.Proofs.RoundTrip

namespace TaggedWire

namespace Utf16

theorem length_ofChar (c : Char) : (ofChar c).length = if 0xFFFF < c.toNat then 2 else 1 := by
  unfold ofChar
  split
  · rw [if_neg (by omega)]
    rfl
  · rw [if_pos (by omega)]
    rfl

theorem length_encode (cs : List Char) :
    (encode cs).length = cs.length + cs.countP (0xFFFF < ·.toNat) := by
  induction cs with
  | nil => rfl
  | cons c cs ih =>
    rw [encode_cons, List.length_append, length_ofChar, ih, List.length_cons, List.countP_cons]
    simp only [decide_eq_true_eq]
    split <;> omega

theorem length_bytes (units : List UInt16) : (bytes units).length = 2 * units.length := by
  induction units with
  | nil => rfl
  | cons u units ih =>
    rw [bytes_cons, List.length_cons, List.length_cons, List.length_cons, ih]
    omega

end Utf16

theorem Value.encode_text {s : String} (hs : s ≠ "") {o : Options} (hdepth : 0 < o.maxDepth)
    (hsize : (Utf16.encode s.toList).length < capacity 4) :
    (text s).encode o = .ok (Tag.text.asArray :: Base128.ofNat (Utf16.encode s.toList).length ++
      Utf16.bytes (Utf16.encode s.toList)) := by
  have hfree : (text s).CustomFree := customFree_iff.mpr ((everywhere_leaf rfl).mpr rfl)
  rw [encode_eq_ok hfree, layout_eq_ok, body, Layout.text_eq_ok, String.isEmpty_iff]
  exact ⟨hdepth, .inr ⟨hs, hsize, rfl⟩⟩

/-- A text is its tag, its number of code units and twice as many bytes, from which it comes back,
whatever follows it: the number is read first, then so many units, which decode to the text. -/
theorem Value.encode_text_decodes {s : String} {n : Nat} (hs : s ≠ "")
    (hn : s.length + s.toList.countP (0xFFFF < ·.toNat) = n) (hsize : n < capacity 4) (o : Options)
    (hdepth : 0 < o.maxDepth) (rest : List UInt8) :
    ∃ count payload units, (text s).encode o = .ok (0x4D :: count ++ payload) ∧
      Base128.writeNat 4 n = .ok count ∧ payload.length = 2 * n ∧
      Base128.readNat 4 (count ++ payload ++ rest) = (.ok n, payload ++ rest) ∧
      Utf16.takeUnits n (payload ++ rest) = some (units, rest) ∧
      Utf16.decode units = some s.toList := by
  have hlength : (Utf16.encode s.toList).length = n := by
    rw [Utf16.length_encode, String.length_toList, hn]
  have hwidth : 4 ∈ Base128.widths := by decide
  refine ⟨Base128.ofNat n, Utf16.bytes (Utf16.encode s.toList), Utf16.encode s.toList, ?_, ?_, ?_,
    ?_, ?_, Utf16.decode_encode s.toList⟩
  · rw [← hlength] at hsize ⊢
    exact encode_text hs hdepth hsize
  · exact Base128.writeNat_eq_ok_iff.mpr ⟨hwidth, hsize, rfl⟩
  · rw [Utf16.length_bytes, hlength]
  · rw [List.append_assoc]
    exact Base128.readNat_ofNat hwidth hsize _
  · rw [← hlength]
    exact Utf16.takeUnits_bytes ..

/-- The characters next to the surrogates, and one that takes a pair of them. -/
theorem Value.surrogate_neighbours_decode :
    let s := "\uD7FF\uE000😀"
    s ≠ "" ∧ s.length + s.toList.countP (0xFFFF < ·.toNat) = 4 ∧ 4 < capacity 4 ∧
      ∃ payload units, (text s).encode { maxDepth := 1 } = .ok (0x4D :: [4] ++ payload) ∧
        Utf16.takeUnits 4 (payload ++ [0xAA]) = some (units, [0xAA]) ∧
        Utf16.decode units = some s.toList := by
  intro s
  have hs : s ≠ "" := by decide
  have hn : s.length + s.toList.countP (0xFFFF < ·.toNat) = 4 := by decide +kernel
  obtain ⟨count, payload, units, hencode, hcount, -, -, hunits, hdecode⟩ :=
    encode_text_decodes hs hn (by decide) { maxDepth := 1 } (by decide) [0xAA]
  have hfour : count = [4] := by
    obtain ⟨-, -, rfl⟩ := Base128.writeNat_eq_ok_iff.mp hcount
    rw [Base128.ofNat]
    rfl
  exact ⟨hs, hn, by decide, payload, units, hfour ▸ hencode, hunits, hdecode⟩

/-- Where no level is allowed even a text is refused. -/
theorem Value.text_refused_at_no_depth :
    (text "a").encode { maxDepth := 0 } = .error (.fault (.depthExceeded 0)) := rfl

end TaggedWire
