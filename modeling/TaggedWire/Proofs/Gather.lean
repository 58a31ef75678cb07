import Mathlib.Tactic.Ring
import TaggedWire.Proofs.Base128

namespace TaggedWire

namespace Base128

variable {b : UInt8} {bytes rest : List UInt8} {word : BitVec 64} {shift width : Nat}

section Bits

theorem toNat_group (b : UInt8) : (group b).toNat = b.toNat % 128 := by
  have hmask : (b &&& 0x7F).toNat = b.toNat % 128 := by
    rw [UInt8.toNat_and]
    exact Nat.and_two_pow_sub_one_eq_mod b.toNat 7
  rw [group, BitVec.toNat_setWidth, UInt8.toNat_toBitVec, hmask]
  omega

theorem continues_iff : b &&& 0x80 ≠ 0 ↔ 128 ≤ b.toNat := by
  have h : ∀ n : Fin 256, n.val &&& 128 ≠ 0 ↔ 128 ≤ n.val := by decide +kernel
  rw [Ne, ← UInt8.toNat_inj, UInt8.toNat_and]
  exact h ⟨b.toNat, b.toNat_lt⟩

theorem negative_iff : b &&& 0x40 ≠ 0 ↔ 64 ≤ b.toNat % 128 := by
  have h : ∀ n : Fin 256, n.val &&& 64 ≠ 0 ↔ 64 ≤ n.val % 128 := by decide +kernel
  rw [Ne, ← UInt8.toNat_inj, UInt8.toNat_and]
  exact h ⟨b.toNat, b.toNat_lt⟩

theorem toNat_or_of_dvd {word word' : BitVec 64} (hw : word.toNat < 2 ^ shift)
    (h : 2 ^ shift ∣ word'.toNat) : (word ||| word').toNat = word.toNat + word'.toNat := by
  obtain ⟨c, hc⟩ := h
  rw [BitVec.toNat_or, hc, Nat.or_comm, ← Nat.two_pow_add_eq_or_of_lt hw, Nat.add_comm]

theorem two_pow_dvd_mod (shift g : Nat) : 2 ^ shift ∣ 2 ^ shift * g % 2 ^ 64 := by
  rcases Nat.le_total shift 64 with h | h
  · exact (Nat.dvd_mod_iff (Nat.pow_dvd_pow 2 h)).mpr (Nat.dvd_mul_right ..)
  · have hdvd : 2 ^ 64 ∣ 2 ^ shift * g := Nat.dvd_mul_right_of_dvd (Nat.pow_dvd_pow 2 h) g
    rw [Nat.mod_eq_zero_of_dvd hdvd]
    exact Nat.dvd_zero _

theorem toNat_group_shiftLeft (b : UInt8) (shift : Nat) :
    (group b <<< shift).toNat = 2 ^ shift * (b.toNat % 128) % 2 ^ 64 := by
  rw [BitVec.toNat_shiftLeft, toNat_group, Nat.shiftLeft_eq, Nat.mul_comm]

/-- A group goes above the bits that are there; what reaches past the word is lost. -/
theorem toNat_or_group (hw : word.toNat < 2 ^ shift) (b : UInt8) :
    (word ||| group b <<< shift).toNat =
      word.toNat + 2 ^ shift * (b.toNat % 128) % 2 ^ 64 := by
  have hdvd := two_pow_dvd_mod shift (b.toNat % 128)
  rw [← toNat_group_shiftLeft] at hdvd ⊢
  exact toNat_or_of_dvd hw hdvd

theorem toNat_or_group_lt (hw : word.toNat < 2 ^ shift) (b : UInt8) :
    (word ||| group b <<< shift).toNat < 2 ^ (shift + 7) := by
  have hmul : 2 ^ shift * (b.toNat % 128) ≤ 2 ^ shift * 127 := Nat.mul_le_mul_left _ (by omega)
  have hmod := Nat.mod_le (2 ^ shift * (b.toNat % 128)) (2 ^ 64)
  rw [toNat_or_group hw, Nat.pow_add]
  omega

theorem shift_back_iff :
    group b <<< shift >>> shift ≠ group b ↔ 2 ^ 64 ≤ 2 ^ shift * (b.toNat % 128) := by
  rw [Ne, ← BitVec.toNat_inj, BitVec.toNat_ushiftRight, toNat_group_shiftLeft, toNat_group,
    Nat.shiftRight_eq_div_pow]
  have hpos := Nat.two_pow_pos shift
  constructor
  · intro h
    by_contra hlt
    rw [Nat.mod_eq_of_lt (Nat.not_le.mp hlt), Nat.mul_div_cancel_left _ hpos] at h
    exact h rfl
  · intro h heq
    have hle := Nat.mul_div_le (2 ^ shift * (b.toNat % 128) % 2 ^ 64) (2 ^ shift)
    rw [heq] at hle
    have hlt := Nat.mod_lt (2 ^ shift * (b.toNat % 128)) (Nat.two_pow_pos 64)
    omega

end Bits

theorem le_value_groupsTo (b : UInt8) (bytes : List UInt8) (k : Nat) :
    b.toNat % 128 ≤ value (groupsTo k (b :: bytes)) := by
  cases k <;> simp [value]

theorem capacity_le (h : width ∈ widths) : capacity width ≤ 2 ^ 64 := by
  have hall : ∀ w ∈ widths, capacity w ≤ 2 ^ 64 := by decide
  exact hall width h

theorem exceeds_iff (h : width ∈ widths) :
    width < 8 ∧ word >>> (8 * width) ≠ 0 ↔ capacity width ≤ word.toNat := by
  have hpow : capacity width = 2 ^ (8 * width) := (Nat.pow_mul 2 8 width).symm
  have hshift : word >>> (8 * width) ≠ 0 ↔ capacity width ≤ word.toNat := by
    rw [Ne, ← BitVec.toNat_inj, BitVec.toNat_ushiftRight, Nat.shiftRight_eq_div_pow, hpow]
    exact Nat.div_ne_zero_iff.trans (and_iff_right (Nat.two_pow_pos _).ne')
  rw [hshift, and_iff_right_iff_imp]
  intro hle
  have hw : width ≠ 8 := by
    rintro rfl
    exact absurd word.isLt (Nat.not_lt.mpr hle)
  have hall : ∀ w ∈ widths, w ≤ 8 := by decide
  exact Nat.lt_of_le_of_ne (hall width h) hw

theorem exists_closing_of_lt (h : b.toNat < 128) {P : Nat → Prop} :
    (∃ k, closing? (b :: bytes) = some k ∧ P k) ↔ P 0 := by
  simp [closing?_cons_of_lt h]

theorem exists_closing_of_le (h : 128 ≤ b.toNat) {P : Nat → Prop} :
    (∃ k, closing? (b :: bytes) = some k ∧ P k) ↔ ∃ k, closing? bytes = some k ∧ P (k + 1) := by
  simp [closing?_cons_of_le h, Option.map_eq_some_iff]

/-- The groups up to the closing byte make up the number, above the bits that are there. -/
theorem gatherNat_eq_ok_iff (h : width ∈ widths) {left n : Nat} (hw : word.toNat < 2 ^ shift) :
    gatherNat width left shift word bytes = (.ok n, rest) ↔
      ∃ k, closing? bytes = some k ∧ k < left ∧
        word.toNat + 2 ^ shift * value (groupsTo k bytes) = n ∧ n < capacity width ∧
        bytes.drop (k + 1) = rest := by
  induction left generalizing shift word bytes with
  | zero => simp [gatherNat]
  | succ left ih =>
    cases bytes with
    | nil => simp [gatherNat, closing?]
    | cons b bytes =>
      rw [gatherNat]
      split
      · rename_i hlost
        have hcap := capacity_le h
        have hle := shift_back_iff.mp hlost
        simp only [Prod.mk.injEq, reduceCtorEq, false_and, false_iff, not_exists]
        rintro k ⟨hk, -, hn, hlt, -⟩
        have hmul := Nat.mul_le_mul_left (2 ^ shift) (le_value_groupsTo b bytes k)
        omega
      · rename_i hroom
        have hword := toNat_or_group hw b
        rw [shift_back_iff, Nat.not_le] at hroom
        rw [Nat.mod_eq_of_lt hroom] at hword
        by_cases hb : b.toNat < 128
        · rw [if_neg (mt continues_iff.mp (Nat.not_le.mpr hb)), exists_closing_of_lt hb,
            groupsTo_zero]
          simp only [exceeds_iff h, hword, value]
          split <;> simp <;> omega
        · have hpow : 2 ^ (shift + 7) = 2 ^ shift * 128 := Nat.pow_add 2 shift 7
          rw [if_pos (continues_iff.mpr (Nat.not_lt.mp hb)), ih (toNat_or_group_lt hw b),
            exists_closing_of_le (Nat.not_lt.mp hb)]
          simp only [groupsTo_succ, value, hword, hpow, Nat.mul_add, Nat.mul_assoc, Nat.add_assoc,
            Nat.add_lt_add_iff_right, List.drop_succ_cons]

theorem bmod_add_mod (w a : Nat) (z : Int) :
    (((w + a % 2 ^ 64 : Nat) : Int) + z).bmod (2 ^ 64) = (w + a + z : Int).bmod (2 ^ 64) := by
  have hdiv : (w + a + z : Int) =
      ((w + a % 2 ^ 64 : Nat) : Int) + z + (2 ^ 64 : Nat) * (a / 2 ^ 64 : Nat) := by
    omega
  rw [hdiv, Int.add_mul_bmod_self_left]

theorem toNat_or_ones (hw : word.toNat < 2 ^ shift) :
    (word ||| BitVec.allOnes 64 <<< shift).toNat =
      word.toNat + 2 ^ shift * (2 ^ 64 - 1) % 2 ^ 64 := by
  have hones : (BitVec.allOnes 64 <<< shift).toNat = 2 ^ shift * (2 ^ 64 - 1) % 2 ^ 64 := by
    rw [BitVec.toNat_shiftLeft, BitVec.toNat_allOnes, Nat.shiftLeft_eq, Nat.mul_comm]
  have hdvd := two_pow_dvd_mod shift (2 ^ 64 - 1)
  rw [← hones] at hdvd ⊢
  exact toNat_or_of_dvd hw hdvd

theorem extend_eq_of_lt (hw : word.toNat < 2 ^ shift) (b : UInt8) (htop : shift + 7 < 64) :
    extend (shift + 7) b (word ||| group b <<< shift) =
      (word.toNat + (2 ^ shift : Nat) * signedValue [b.toNat % 128] : Int).bmod (2 ^ 64) := by
  have hpow : 2 ^ (shift + 7) = 2 ^ shift * 128 := Nat.pow_add 2 shift 7
  have hle : 2 ^ (shift + 7) ≤ 2 ^ 63 := Nat.pow_le_pow_right (by decide) (by omega)
  have hmul : 2 ^ shift * (b.toNat % 128) ≤ 2 ^ shift * 127 := Nat.mul_le_mul_left _ (by omega)
  have hword := toNat_or_group hw b
  rw [Nat.mod_eq_of_lt (by omega)] at hword
  rw [extend, BitVec.toInt_eq_toNat_bmod, signedValue_singleton]
  by_cases hneg : 64 ≤ b.toNat % 128
  · have hfill := bmod_add_mod (word.toNat + 2 ^ shift * (b.toNat % 128))
      (2 ^ (shift + 7) * (2 ^ 64 - 1)) 0
    -- The ones above the group are its sign, less a multiple of the word's size.
    have hsum : ((word.toNat + 2 ^ shift * (b.toNat % 128) : Nat) : Int) +
        (2 ^ (shift + 7) * (2 ^ 64 - 1) : Nat) =
          word.toNat + (2 ^ shift : Nat) * ((b.toNat % 128 : Nat) - 128) +
            (2 ^ 64 : Nat) * (2 ^ shift * 128 : Nat) := by
      rw [hpow]
      push_cast
      ring
    rw [Int.add_zero, Int.add_zero, hsum, Int.add_mul_bmod_self_left] at hfill
    rw [if_pos ⟨htop, negative_iff.mpr hneg⟩, toNat_or_ones (toNat_or_group_lt hw b), hword, hfill,
      if_neg (Nat.not_lt.mpr hneg)]
  · rw [if_neg fun h ↦ hneg (negative_iff.mp h.2), hword, if_pos (Nat.not_le.mp hneg)]
    push_cast
    rfl

theorem extend_eq_of_le (hw : word.toNat < 2 ^ shift) (b : UInt8) (htop : 64 ≤ shift + 7) :
    extend (shift + 7) b (word ||| group b <<< shift) =
      (word.toNat + (2 ^ shift : Nat) * signedValue [b.toNat % 128] : Int).bmod (2 ^ 64) := by
  have hpow : 2 ^ (shift + 7) = 2 ^ shift * 128 := Nat.pow_add 2 shift 7
  obtain ⟨c, hc⟩ : 2 ^ 64 ∣ 2 ^ shift * 128 := hpow ▸ Nat.pow_dvd_pow 2 htop
  have hlost := bmod_add_mod word.toNat (2 ^ shift * (b.toNat % 128)) 0
  rw [Int.add_zero, Int.add_zero, Nat.cast_mul] at hlost
  rw [extend, BitVec.toInt_eq_toNat_bmod, signedValue_singleton,
    if_neg fun h ↦ Nat.not_lt.mpr htop h.1, toNat_or_group hw b, hlost]
  split
  · rfl
  · have hsign : ((2 ^ shift : Nat) : Int) * 128 = (2 ^ 64 : Nat) * c := by exact_mod_cast hc
    have hsum : (word.toNat + (2 ^ shift : Nat) * (b.toNat % 128 : Nat) : Int) =
        word.toNat + (2 ^ shift : Nat) * ((b.toNat % 128 : Nat) - 128) + (2 ^ 64 : Nat) * c := by
      rw [← hsign]
      ring
    rw [hsum, Int.add_mul_bmod_self_left]

theorem extend_eq (hw : word.toNat < 2 ^ shift) (b : UInt8) :
    extend (shift + 7) b (word ||| group b <<< shift) =
      (word.toNat + (2 ^ shift : Nat) * signedValue [b.toNat % 128] : Int).bmod (2 ^ 64) :=
  (Nat.lt_or_ge (shift + 7) 64).elim (extend_eq_of_lt hw b) (extend_eq_of_le hw b)

theorem gatherInt_eq_ok_iff {left : Nat} {v : Int} (hw : word.toNat < 2 ^ shift) :
    gatherInt width left shift word bytes = (.ok v, rest) ↔
      ∃ k, closing? bytes = some k ∧ k < left ∧
        (word.toNat + (2 ^ shift : Nat) * signedValue (groupsTo k bytes) : Int).bmod (2 ^ 64) = v ∧
        FitsSigned width v ∧ bytes.drop (k + 1) = rest := by
  induction left generalizing shift word bytes with
  | zero => simp [gatherInt]
  | succ left ih =>
    cases bytes with
    | nil => simp [gatherInt, closing?]
    | cons b bytes =>
      rw [gatherInt]
      by_cases hb : b.toNat < 128
      · rw [if_neg (mt continues_iff.mp (Nat.not_le.mpr hb)), exists_closing_of_lt hb,
          groupsTo_zero, extend_eq hw]
        dsimp only
        split <;> simp <;> grind
      · have hword := toNat_or_group hw b
        have hpow : 2 ^ (shift + 7) = 2 ^ shift * 128 := Nat.pow_add 2 shift 7
        rw [if_pos (continues_iff.mpr (Nat.not_lt.mp hb)), ih (toNat_or_group_lt hw b),
          exists_closing_of_le (Nat.not_lt.mp hb), hword]
        apply exists_congr
        intro k
        refine and_congr_right fun hk ↦ ?_
        have hsum : word.toNat + (2 ^ shift * (b.toNat % 128) : Nat) +
            (2 ^ (shift + 7) : Nat) * signedValue (groupsTo k bytes) =
              word.toNat + (2 ^ shift : Nat) *
                ((b.toNat % 128 : Nat) + 128 * signedValue (groupsTo k bytes)) := by
          rw [hpow]
          push_cast
          ring
        rw [groupsTo_succ, signedValue_cons _ (groupsTo_ne_nil hk), bmod_add_mod, hsum,
          List.drop_succ_cons, Nat.add_lt_add_iff_right]

theorem gatherNat_rest (width left shift : Nat) (word : BitVec 64) (bytes : List UInt8) :
    ∃ l ≤ left, (gatherNat width left shift word bytes).2 = bytes.drop l := by
  induction left generalizing shift word bytes with
  | zero => exact ⟨0, Nat.le_refl 0, rfl⟩
  | succ left ih =>
    cases bytes with
    | nil => exact ⟨0, Nat.zero_le _, rfl⟩
    | cons b bytes =>
      rw [gatherNat]
      split
      · exact ⟨1, by omega, rfl⟩
      · dsimp only
        split
        · obtain ⟨l, hl, hrest⟩ := ih (shift + 7) (word ||| group b <<< shift) bytes
          exact ⟨l + 1, Nat.succ_le_succ hl, hrest⟩
        · refine ⟨1, by omega, ?_⟩
          split <;> rfl

theorem gatherInt_rest (width left shift : Nat) (word : BitVec 64) (bytes : List UInt8) :
    ∃ l ≤ left, (gatherInt width left shift word bytes).2 = bytes.drop l := by
  induction left generalizing shift word bytes with
  | zero => exact ⟨0, Nat.le_refl 0, rfl⟩
  | succ left ih =>
    cases bytes with
    | nil => exact ⟨0, Nat.zero_le _, rfl⟩
    | cons b bytes =>
      rw [gatherInt]
      dsimp only
      split
      · obtain ⟨l, hl, hrest⟩ := ih (shift + 7) (word ||| group b <<< shift) bytes
        exact ⟨l + 1, Nat.succ_le_succ hl, hrest⟩
      · refine ⟨1, by omega, ?_⟩
        split <;> rfl

theorem readNat_eq_ok_iff (h : width ∈ widths) {n : Nat} :
    readNat width bytes = (.ok n, rest) ↔
      ∃ k, closing? bytes = some k ∧ k < maxLength width ∧ value (groupsTo k bytes) = n ∧
        n < capacity width ∧ bytes.drop (k + 1) = rest := by
  rw [readNat, if_neg (not_not_intro h), gatherNat_eq_ok_iff h (by decide)]
  simp

theorem readInt_eq_ok_iff (h : width ∈ widths) {v : Int} :
    readInt width bytes = (.ok v, rest) ↔
      ∃ k, closing? bytes = some k ∧ k < maxLength width ∧
        (signedValue (groupsTo k bytes)).bmod (2 ^ 64) = v ∧ FitsSigned width v ∧
        bytes.drop (k + 1) = rest := by
  rw [readInt, if_neg (not_not_intro h), gatherInt_eq_ok_iff (by decide)]
  simp

theorem readNat_rest (h : width ∈ widths) (bytes : List UInt8) :
    ∃ l ≤ maxLength width, (readNat width bytes).2 = bytes.drop l := by
  rw [readNat, if_neg (not_not_intro h)]
  exact gatherNat_rest ..

theorem readInt_rest (h : width ∈ widths) (bytes : List UInt8) :
    ∃ l ≤ maxLength width, (readInt width bytes).2 = bytes.drop l := by
  rw [readInt, if_neg (not_not_intro h)]
  exact gatherInt_rest ..

end Base128

end TaggedWire
