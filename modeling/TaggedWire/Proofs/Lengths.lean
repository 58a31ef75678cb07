import Mathlib.Tactic.Ring
import TaggedWire.Proofs.Base128

namespace TaggedWire

namespace Base128

theorem bitLength_le_iff {n k : Nat} : bitLength n ≤ k ↔ n < 2 ^ k := by
  unfold bitLength
  split
  · rename_i hn
    subst hn
    exact iff_of_true (Nat.zero_le k) (Nat.two_pow_pos k)
  · rename_i hn
    exact Nat.log2_lt hn

theorem natLength_le_iff {n l : Nat} : natLength n ≤ l + 1 ↔ n < 128 ^ (l + 1) := by
  have hpow : 128 ^ (l + 1) = 2 ^ (7 * (l + 1)) := (Nat.pow_mul 2 7 (l + 1)).symm
  rw [hpow, ← bitLength_le_iff, natLength]
  omega

theorem intLength_le_iff {v : Int} {l : Nat} :
    intLength v ≤ l + 1 ↔ -(64 * 128 ^ l : Nat) ≤ v ∧ v < (64 * 128 ^ l : Nat) := by
  have hpow : 64 * 128 ^ l = 2 ^ (7 * l + 6) := by
    rw [Nat.pow_add, Nat.pow_mul, Nat.mul_comm]
  have hbits : intLength v ≤ l + 1 ↔
      bitLength (if v < 0 then -v - 1 else v).toNat ≤ 7 * l + 6 := by
    rw [intLength]
    omega
  rw [hbits, bitLength_le_iff, ← hpow]
  split <;> omega

theorem length_ofNat_pos (n : Nat) : 0 < (ofNat n).length := by
  rw [ofNat]
  split <;> simp

theorem length_ofInt_pos (v : Int) : 0 < (ofInt v).length := by
  rw [ofInt]
  split <;> simp

theorem length_ofNat_le_iff {n l : Nat} : (ofNat n).length ≤ l + 1 ↔ n < 128 ^ (l + 1) := by
  induction l generalizing n with
  | zero =>
    have hpos := length_ofNat_pos (n / 128)
    rw [ofNat, Nat.zero_add, Nat.pow_one]
    split
    · exact iff_of_true (by simp) ‹n < 128›
    · rw [List.length_cons]
      omega
  | succ l ih =>
    have hpos := Nat.pow_pos (n := l + 1) (by decide : 0 < 128)
    rw [ofNat, Nat.pow_succ]
    split
    · rename_i hn
      exact iff_of_true (by simp) (by omega)
    · rw [List.length_cons, Nat.add_le_add_iff_right, ih, Nat.div_lt_iff_lt_mul (by decide)]

theorem length_ofNat (n : Nat) : (ofNat n).length = natLength n := by
  apply eq_of_forall_ge_iff
  intro l
  cases l with
  | zero =>
    have hpos := length_ofNat_pos n
    have hone : 1 ≤ natLength n := Nat.le_max_left ..
    omega
  | succ l => rw [length_ofNat_le_iff, natLength_le_iff]

theorem length_ofInt_le_iff {v : Int} {l : Nat} :
    (ofInt v).length ≤ l + 1 ↔ -(64 * 128 ^ l : Nat) ≤ v ∧ v < (64 * 128 ^ l : Nat) := by
  induction l generalizing v with
  | zero =>
    have hpos := length_ofInt_pos (v / 128)
    rw [ofInt, Nat.pow_zero]
    split
    · rename_i hv
      exact iff_of_true (by simp) (by omega)
    · rw [List.length_cons]
      omega
  | succ l ih =>
    have hpos := Nat.pow_pos (n := l) (by decide : 0 < 128)
    rw [ofInt, Nat.pow_succ]
    split
    · rename_i hv
      exact iff_of_true (by simp) (by omega)
    · rw [List.length_cons, Nat.add_le_add_iff_right, ih]
      omega

theorem length_ofInt (v : Int) : (ofInt v).length = intLength v := by
  apply eq_of_forall_ge_iff
  intro l
  cases l with
  | zero =>
    have hpos := length_ofInt_pos v
    have hone : 1 ≤ intLength v := by
      rw [intLength]
      omega
    omega
  | succ l => rw [length_ofInt_le_iff, intLength_le_iff]

section Shortest

variable {b : UInt8} {bytes : List UInt8} {k : Nat}

theorem value_groupsTo_lt (h : closing? bytes = some k) : value (groupsTo k bytes) < 128 ^ (k + 1) := by
  induction bytes generalizing k with
  | nil => cases h
  | cons b bytes ih =>
    obtain ⟨hb, rfl⟩ | ⟨hb, j, hj, rfl⟩ := closing?_cons_eq_some_iff.mp h
    · rw [groupsTo_zero, value, value, Nat.zero_add, Nat.pow_one]
      omega
    · have hlt := ih hj
      rw [groupsTo_succ, value, Nat.pow_succ]
      omega

theorem ofNat_eq_take_of_length (h : closing? bytes = some k)
    (hlength : (ofNat (value (groupsTo k bytes))).length = k + 1) :
    ofNat (value (groupsTo k bytes)) = bytes.take (k + 1) := by
  induction bytes generalizing k with
  | nil => cases h
  | cons b bytes ih =>
    have hlt := b.toNat_lt
    obtain ⟨hb, rfl⟩ | ⟨hb, j, hj, rfl⟩ := closing?_cons_eq_some_iff.mp h
    · have hvalue : value (groupsTo 0 (b :: bytes)) = b.toNat := by
        rw [groupsTo_zero, value, value]
        omega
      rw [hvalue, ofNat, if_pos hb]
      exact congrArg (· :: []) UInt8.ofNat_toNat
    · have hvalue : value (groupsTo (j + 1) (b :: bytes)) =
          b.toNat % 128 + 128 * value (groupsTo j bytes) := rfl
      have hlarge : ¬ value (groupsTo (j + 1) (b :: bytes)) < 128 := by
        intro hsmall
        rw [ofNat, if_pos hsmall] at hlength
        cases hlength
      have hlow : value (groupsTo (j + 1) (b :: bytes)) % 128 + 128 = b.toNat := by omega
      have hhigh : value (groupsTo (j + 1) (b :: bytes)) / 128 = value (groupsTo j bytes) := by
        omega
      rw [ofNat, if_neg hlarge, hlow, hhigh] at hlength ⊢
      rw [ih hj (Nat.succ.inj hlength)]
      exact congrArg (· :: _) UInt8.ofNat_toNat

theorem natLength_groupsTo (h : closing? bytes = some k) :
    natLength (value (groupsTo k bytes)) ≤ k + 1 ∧
      (natLength (value (groupsTo k bytes)) = k + 1 ↔
        ofNat (value (groupsTo k bytes)) = bytes.take (k + 1)) := by
  refine ⟨natLength_le_iff.mpr (value_groupsTo_lt h), ?_⟩
  rw [← length_ofNat]
  refine ⟨ofNat_eq_take_of_length h, fun htake ↦ ?_⟩
  obtain ⟨j, hj, hlength, -⟩ := ofNat_closes (value (groupsTo k bytes)) (bytes.drop (k + 1))
  rw [htake, List.take_append_drop, h] at hj
  cases hj
  exact hlength

end Shortest

end Base128

end TaggedWire
