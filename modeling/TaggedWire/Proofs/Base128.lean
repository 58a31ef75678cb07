import TaggedWire.Base128

namespace TaggedWire

namespace Base128

variable {b : UInt8} {bytes r s : List UInt8} {k : Nat}

theorem toNat_toUInt8 {n : Nat} (h : n < 256) : n.toUInt8.toNat = n := by
  simp [Nat.mod_eq_of_lt h]

theorem writeNat_eq_ok_iff {width n : Nat} :
    writeNat width n = .ok bytes ↔ width ∈ widths ∧ n < capacity width ∧ ofNat n = bytes := by
  unfold writeNat
  split
  · simp [*]
  · split <;> grind

theorem writeInt_eq_ok_iff {width : Nat} {v : Int} :
    writeInt width v = .ok bytes ↔ width ∈ widths ∧ FitsSigned width v ∧ ofInt v = bytes := by
  unfold writeInt
  split
  · simp [*]
  · split <;> grind

theorem closing?_cons :
    closing? (b :: bytes) = if b.toNat < 128 then some 0 else (closing? bytes).map (· + 1) := by
  simp [closing?, List.findIdx?_cons]

theorem closing?_cons_of_lt (h : b.toNat < 128) : closing? (b :: bytes) = some 0 := by
  rw [closing?_cons, if_pos h]

theorem closing?_cons_of_le (h : 128 ≤ b.toNat) :
    closing? (b :: bytes) = (closing? bytes).map (· + 1) := by
  rw [closing?_cons, if_neg (Nat.not_lt.mpr h)]

theorem closing?_cons_eq_some_iff :
    closing? (b :: bytes) = some k ↔
      b.toNat < 128 ∧ k = 0 ∨ 128 ≤ b.toNat ∧ ∃ j, closing? bytes = some j ∧ k = j + 1 := by
  rw [closing?_cons]
  split <;> simp [Option.map_eq_some_iff, *] <;> grind

@[simp] theorem groupsTo_zero (b : UInt8) (bytes : List UInt8) :
    groupsTo 0 (b :: bytes) = [b.toNat % 128] := rfl

@[simp] theorem groupsTo_succ (k : Nat) (b : UInt8) (bytes : List UInt8) :
    groupsTo (k + 1) (b :: bytes) = b.toNat % 128 :: groupsTo k bytes := rfl

theorem groupsTo_ne_nil (h : closing? bytes = some k) : groupsTo k bytes ≠ [] := by
  cases bytes with
  | nil => cases h
  | cons b bytes => cases k <;> simp

theorem ofNat_closes (n : Nat) (rest : List UInt8) :
    ∃ k, closing? (ofNat n ++ rest) = some k ∧ (ofNat n).length = k + 1 ∧
      value (groupsTo k (ofNat n ++ rest)) = n := by
  induction n using ofNat.induct with
  | case1 n hn =>
    have hb := toNat_toUInt8 (by omega : n < 256)
    rw [ofNat, if_pos hn]
    refine ⟨0, closing?_cons_of_lt (by omega), rfl, ?_⟩
    simp only [List.cons_append, groupsTo_zero, hb, value]
    omega
  | case2 n hn ih =>
    obtain ⟨k, hk, hlength, hvalue⟩ := ih
    have hb := toNat_toUInt8 (by omega : n % 128 + 128 < 256)
    rw [ofNat, if_neg hn]
    refine ⟨k + 1, ?_, by rw [List.length_cons, hlength], ?_⟩
    · rw [List.cons_append, closing?_cons_of_le (by omega), hk, Option.map_some]
    · simp only [List.cons_append, groupsTo_succ, hb, value, hvalue]
      omega

theorem signedValue_singleton (g : Nat) :
    signedValue [g] = if g < 64 then (g : Int) else g - 128 := by
  simp [signedValue, value]

theorem signedValue_cons (g : Nat) {groups : List Nat} (h : groups ≠ []) :
    signedValue (g :: groups) = g + 128 * signedValue groups := by
  obtain ⟨g', groups, rfl⟩ := List.exists_cons_of_ne_nil h
  have hlast : (g :: g' :: groups).getLastD 0 = (g' :: groups).getLastD 0 := rfl
  simp only [signedValue, hlast, List.length_cons, Nat.pow_eq]
  split
  · simp [value]
  · simp only [value, Nat.pow_succ]
    push_cast
    omega

theorem ofInt_closes (v : Int) (rest : List UInt8) :
    ∃ k, closing? (ofInt v ++ rest) = some k ∧ (ofInt v).length = k + 1 ∧
      signedValue (groupsTo k (ofInt v ++ rest)) = v := by
  induction v using ofInt.induct with
  | case1 v hv =>
    have hb := toNat_toUInt8 (by omega : (v % 128).toNat < 256)
    rw [ofInt, if_pos hv]
    refine ⟨0, closing?_cons_of_lt (by omega), rfl, ?_⟩
    simp only [List.cons_append, groupsTo_zero, hb, signedValue_singleton]
    split <;> omega
  | case2 v hv ih =>
    obtain ⟨k, hk, hlength, hvalue⟩ := ih
    have hb := toNat_toUInt8 (by omega : (v % 128 + 128).toNat < 256)
    rw [ofInt, if_neg hv]
    refine ⟨k + 1, ?_, by rw [List.length_cons, hlength], ?_⟩
    · rw [List.cons_append, closing?_cons_of_le (by omega), hk, Option.map_some]
    · rw [List.cons_append, groupsTo_succ, signedValue_cons _ (groupsTo_ne_nil hk), hvalue, hb]
      omega

theorem append_inj_of_closes {α : Type} {f : α → List UInt8} {val : List Nat → α}
    (hf : ∀ a rest, ∃ k, closing? (f a ++ rest) = some k ∧ (f a).length = k + 1 ∧
      val (groupsTo k (f a ++ rest)) = a)
    {a b : α} (h : f a ++ r = f b ++ s) : a = b ∧ r = s := by
  obtain ⟨j, hj, -, ha⟩ := hf a r
  obtain ⟨k, hk, -, hb⟩ := hf b s
  rw [h, hk] at hj
  cases hj
  obtain rfl : a = b := by rw [← ha, h, hb]
  exact ⟨rfl, List.append_cancel_left h⟩

theorem ofNat_append_inj {m n : Nat} (h : ofNat m ++ r = ofNat n ++ s) : m = n ∧ r = s :=
  append_inj_of_closes ofNat_closes h

theorem ofInt_append_inj {u v : Int} (h : ofInt u ++ r = ofInt v ++ s) : u = v ∧ r = s :=
  append_inj_of_closes ofInt_closes h

end Base128

end TaggedWire
