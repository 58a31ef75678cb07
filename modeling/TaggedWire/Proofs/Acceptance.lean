import TaggedWire.Proofs.Gather
import TaggedWire.Proofs.Lengths

namespace TaggedWire

namespace Base128

variable {bytes : List UInt8} {width k : Nat}

/-- The reader of numbers takes what denotes a number in range. The writer's bytes are the shortest
of these, and no others are as short. -/
theorem readNat_accepts (width : Nat) (bytes : List UInt8) :
    (width ∈ widths →
      (∀ n rest, readNat width bytes = (.ok n, rest) ↔
        ∃ k, closing? bytes = some k ∧ k + 1 ≤ maxLength width ∧ value (groupsTo k bytes) = n ∧
          n < capacity width ∧ bytes.drop (k + 1) = rest) ∧
      (∀ n rest k, readNat width bytes = (.ok n, rest) → closing? bytes = some k →
        natLength n ≤ k + 1 ∧
          (natLength n = k + 1 ↔ writeNat width n = .ok (bytes.take (k + 1)))) ∧
      ∀ fault rest, readNat width bytes = (.error fault, rest) →
        ∃ l ≤ maxLength width, bytes.drop l = rest) ∧
    (width ∉ widths → readNat width bytes = (.error (.badWidth width), bytes)) := by
  refine ⟨fun h ↦ ⟨fun n rest ↦ readNat_eq_ok_iff h, ?_, ?_⟩, fun h ↦ if_pos h⟩
  · intro n rest k hread hk
    obtain ⟨j, hj, -, rfl, hn, -⟩ := (readNat_eq_ok_iff h).mp hread
    obtain rfl : k = j := Option.some.inj (hk.symm.trans hj)
    rw [writeNat_eq_ok_iff, and_iff_right h, and_iff_right hn]
    exact natLength_groupsTo hk
  · intro fault rest hread
    obtain ⟨l, hl, hrest⟩ := readNat_rest h bytes
    rw [hread] at hrest
    exact ⟨l, hl, hrest.symm⟩

/-- Three and a padded three, each followed by another byte, and a width that no reader has. -/
theorem readNat_padded :
    readNat 2 [0x03, 0xAA] = (.ok 3, [0xAA]) ∧ natLength 3 = 1 ∧ writeNat 2 3 = .ok [0x03] ∧
      readNat 2 [0x83, 0x80, 0x00, 0xAA] = (.ok 3, [0xAA]) ∧
      readNat 3 [0x03] = (.error (.badWidth 3), [0x03]) := by
  have h : 2 ∈ widths := by decide
  have hshort := (readNat_accepts 2 [0x03, 0xAA]).1 h
  have hpadded := (readNat_accepts 2 [0x83, 0x80, 0x00, 0xAA]).1 h
  have hread : readNat 2 [0x03, 0xAA] = (.ok 3, [0xAA]) :=
    (hshort.1 3 [0xAA]).mpr ⟨0, rfl, by decide, rfl, by decide, rfl⟩
  have hlength : natLength 3 = 1 := by decide
  exact ⟨hread, hlength, (hshort.2.1 3 [0xAA] 0 hread rfl).2.mp hlength,
    (hpadded.1 3 [0xAA]).mpr ⟨2, rfl, by decide, rfl, by decide, rfl⟩,
    (readNat_accepts 3 [0x03]).2 (by decide)⟩

section Signed

theorem signedValue_groupsTo_bounds (h : closing? bytes = some k) :
    -(64 * 128 ^ k : Nat) ≤ signedValue (groupsTo k bytes) ∧
      signedValue (groupsTo k bytes) < (64 * 128 ^ k : Nat) := by
  induction bytes generalizing k with
  | nil => cases h
  | cons b bytes ih =>
    obtain ⟨hb, rfl⟩ | ⟨hb, j, hj, rfl⟩ := closing?_cons_eq_some_iff.mp h
    · rw [groupsTo_zero, signedValue_singleton]
      split <;> omega
    · obtain ⟨hlow, hhigh⟩ := ih hj
      rw [groupsTo_succ, signedValue_cons _ (groupsTo_ne_nil hj), Nat.pow_succ]
      omega

theorem fitsSigned_eight_iff {v : Int} : FitsSigned 8 v ↔ -2 ^ 63 ≤ v ∧ v < 2 ^ 63 := by
  have hcap : capacity 8 / 2 = 2 ^ 63 := by decide
  rw [FitsSigned, hcap]
  norm_num

theorem FitsSigned.eight {v : Int} (hwidth : width ∈ widths) (h : FitsSigned width v) :
    FitsSigned 8 v := by
  have hall : ∀ w ∈ widths, capacity w / 2 ≤ capacity 8 / 2 := by decide
  have hle := hall width hwidth
  unfold FitsSigned at h ⊢
  omega

theorem bmod_of_fitsSigned {v : Int} (h : FitsSigned 8 v) : v.bmod (2 ^ 64) = v := by
  rw [fitsSigned_eight_iff] at h
  apply Int.bmod_eq_of_le <;> omega

theorem fitsSigned_bmod (v : Int) : FitsSigned 8 (v.bmod (2 ^ 64)) := by
  have hlow := Int.le_bmod (x := v) (Nat.two_pow_pos 64)
  have hhigh := Int.bmod_lt (x := v) (Nat.two_pow_pos 64)
  rw [fitsSigned_eight_iff]
  omega

theorem ten_groups_of_not_fitsSigned (hwidth : width ∈ widths) (hk : closing? bytes = some k)
    (hlimit : k < maxLength width) (h : ¬ FitsSigned 8 (signedValue (groupsTo k bytes))) :
    width = 8 ∧ k = 9 := by
  have hlong : 9 ≤ k := by
    by_contra hshort
    obtain ⟨hlow, hhigh⟩ := signedValue_groupsTo_bounds hk
    have hpow : 128 ^ k ≤ 128 ^ 8 := Nat.pow_le_pow_right (by decide) (by omega)
    rw [fitsSigned_eight_iff] at h
    omega
  have hall : ∀ w ∈ widths, 9 < maxLength w → w = 8 := by decide
  obtain rfl := hall width hwidth (by omega)
  have hmax : maxLength 8 = 10 := rfl
  exact ⟨rfl, by omega⟩

/-- The reader of signed numbers takes what denotes a number in range, and ten groups of any
number: of one out of range it drops the bits past the sixty-fourth. -/
theorem readInt_accepts (hwidth : width ∈ widths) (bytes : List UInt8) :
    (∀ v rest, readInt width bytes = (.ok v, rest) ↔
      ∃ k, closing? bytes = some k ∧ k + 1 ≤ maxLength width ∧ bytes.drop (k + 1) = rest ∧
        (FitsSigned width (signedValue (groupsTo k bytes)) ∧ signedValue (groupsTo k bytes) = v ∨
          width = 8 ∧ k = 9 ∧ ¬ FitsSigned width (signedValue (groupsTo k bytes)) ∧
            (signedValue (groupsTo k bytes)).bmod (2 ^ 64) = v)) ∧
    ∀ fault rest, readInt width bytes = (.error fault, rest) →
      ∃ l ≤ maxLength width, bytes.drop l = rest := by
  refine ⟨fun v rest ↦ ?_, ?_⟩
  · rw [readInt_eq_ok_iff hwidth]
    apply exists_congr
    intro k
    refine and_congr_right fun hk ↦ and_congr_right fun hlimit ↦ ?_
    by_cases h : FitsSigned 8 (signedValue (groupsTo k bytes))
    · rw [bmod_of_fitsSigned h]
      grind
    · obtain ⟨rfl, rfl⟩ := ten_groups_of_not_fitsSigned hwidth hk hlimit h
      have hbmod := fitsSigned_bmod (signedValue (groupsTo 9 bytes))
      grind
  · intro fault rest hread
    obtain ⟨l, hl, hrest⟩ := readInt_rest hwidth bytes
    rw [hread] at hrest
    exact ⟨l, hl, hrest.symm⟩

/-- The lowest number of eight bytes, and ten bytes of a number that is too large. -/
theorem readInt_lowest :
    readInt 8 [0x80, 0x80, 0x80, 0x80, 0x80, 0x80, 0x80, 0x80, 0x80, 0x7F, 0xAA] =
        (.ok (-9223372036854775808), [0xAA]) ∧
      readInt 8 [0x81, 0x80, 0x80, 0x80, 0x80, 0x80, 0x80, 0x80, 0x80, 0x02, 0xAA] =
        (.ok 1, [0xAA]) := by
  have h : 8 ∈ widths := by decide
  exact ⟨((readInt_accepts h _).1 _ _).mpr ⟨9, rfl, by decide, rfl, .inl (by decide)⟩,
    ((readInt_accepts h _).1 _ _).mpr ⟨9, rfl, by decide, rfl, .inr (by decide)⟩⟩

/-- Ten bytes that denote the sixty-fourth power of two are read as zero. -/
theorem readInt_drops_high_bits :
    let bytes : List UInt8 := [0x80, 0x80, 0x80, 0x80, 0x80, 0x80, 0x80, 0x80, 0x80, 0x02]
    closing? bytes = some 9 ∧ maxLength 8 = 10 ∧
      signedValue (groupsTo 9 bytes) = 18446744073709551616 ∧
      ¬ FitsSigned 8 (signedValue (groupsTo 9 bytes)) ∧ readInt 8 bytes = (.ok 0, []) := by
  intro bytes
  exact ⟨rfl, rfl, by decide, by decide, rfl⟩

end Signed

end Base128

end TaggedWire
