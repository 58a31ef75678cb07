import Mathlib.Data.List.Forall2
import TaggedWire.Base128.Calls
import TaggedWire.Proofs.Acceptance
import TaggedWire.Proofs.Arrangement

namespace TaggedWire

namespace Base128

variable {width width' : Nat}

theorem length_ofNat_le {n : Nat} (hwidth : width ∈ widths) (hn : n < capacity width) :
    (ofNat n).length ≤ maxLength width := by
  have hall : ∀ w ∈ widths, 0 < maxLength w ∧ capacity w ≤ 128 ^ maxLength w := by decide
  obtain ⟨hpos, hcap⟩ := hall width hwidth
  obtain ⟨l, hl⟩ := Nat.exists_eq_add_one.mpr hpos
  rw [hl] at hcap ⊢
  exact length_ofNat_le_iff.mpr (Nat.lt_of_lt_of_le hn hcap)

theorem length_ofInt_le {v : Int} (hwidth : width ∈ widths) (hv : FitsSigned width v) :
    (ofInt v).length ≤ maxLength width := by
  have hall : ∀ w ∈ widths,
      0 < maxLength w ∧ capacity w / 2 ≤ 64 * 128 ^ (maxLength w - 1) := by decide
  obtain ⟨hpos, hcap⟩ := hall width hwidth
  obtain ⟨l, hl⟩ := Nat.exists_eq_add_one.mpr hpos
  rw [hl] at hcap ⊢
  rw [Nat.add_sub_cancel] at hcap
  rw [length_ofInt_le_iff]
  unfold FitsSigned at hv
  omega

theorem readNat_ofNat {n : Nat} (hwidth : width ∈ widths) (hn : n < capacity width)
    (rest : List UInt8) : readNat width (ofNat n ++ rest) = (.ok n, rest) := by
  obtain ⟨k, hk, hlength, hvalue⟩ := ofNat_closes n rest
  have hlimit := length_ofNat_le hwidth hn
  refine (readNat_eq_ok_iff hwidth).mpr ⟨k, hk, by omega, hvalue, hn, ?_⟩
  rw [← hlength, List.drop_left]

theorem readInt_ofInt {v : Int} (hwidth : width ∈ widths) (hv : FitsSigned width v)
    (rest : List UInt8) : readInt width (ofInt v ++ rest) = (.ok v, rest) := by
  obtain ⟨k, hk, hlength, hvalue⟩ := ofInt_closes v rest
  have hlimit := length_ofInt_le hwidth hv
  refine (readInt_eq_ok_iff hwidth).mpr ⟨k, hk, by omega, ?_, hv, ?_⟩
  · rw [hvalue, bmod_of_fitsSigned (hv.eight hwidth)]
  · rw [← hlength, List.drop_left]

variable {p : Put} {g : Get} {ps : List Put} {gs : List Get}

theorem Put.Matches.run (h : p.Matches g) (buffer : List UInt8) :
    ∃ bs, p.run buffer = .ok (buffer ++ bs) ∧
      ∀ rest, g.run (bs ++ rest) = (.ok p.val, rest) := by
  cases h with
  | @unsigned width width' n hput hget =>
    refine ⟨ofNat n, ?_, fun rest ↦ ?_⟩
    · rw [Put.run, writeNat_eq_ok_iff.mpr ⟨hput.1, hput.2, rfl⟩]
      rfl
    · rw [Get.run, readNat_ofNat hget.1 hget.2]
      rfl
  | @signed width width' v hput hget =>
    refine ⟨ofInt v, ?_, fun rest ↦ readInt_ofInt hget.1 hget.2 rest⟩
    rw [Put.run, writeInt_eq_ok_iff.mpr ⟨hput.1, hput.2, rfl⟩]
    rfl

theorem runAll_of_matches (h : List.Forall₂ Put.Matches ps gs) (buffer : List UInt8) :
    ∃ bs, Put.runAll buffer ps = .ok (buffer ++ bs) ∧
      ∀ rest, Get.runAll gs (bs ++ rest) = (.ok (ps.map Put.val), rest) := by
  induction h generalizing buffer with
  | nil => exact ⟨[], by rw [List.append_nil, Put.runAll], fun rest ↦ rfl⟩
  | @cons p g ps gs hp _ ih =>
    obtain ⟨bs, hput, hget⟩ := hp.run buffer
    obtain ⟨cs, hputs, hgets⟩ := ih (buffer ++ bs)
    refine ⟨bs ++ cs, ?_, fun rest ↦ ?_⟩
    · rw [Put.runAll, hput, ok_bind, hputs, List.append_assoc]
    · rw [Get.runAll, List.append_assoc, hget]
      dsimp only
      rw [hgets]
      rfl

/-- Integers come back as they were put, in order, at any widths that have room for them. -/
theorem gets_return_puts :
    (∀ width ∈ widths, ∀ width' ∈ widths, ∀ n rest, n < capacity width → n < capacity width' →
      ∃ bs, writeNat width n = .ok bs ∧ readNat width' (bs ++ rest) = (.ok n, rest)) ∧
    (∀ width ∈ widths, ∀ width' ∈ widths, ∀ v rest, FitsSigned width v → FitsSigned width' v →
      ∃ bs, writeInt width v = .ok bs ∧ readInt width' (bs ++ rest) = (.ok v, rest)) ∧
    ∀ ps gs, List.Forall₂ Put.Matches ps gs →
      ∃ bs, Put.runAll [] ps = .ok bs ∧ Get.runAll gs bs = (.ok (ps.map Put.val), []) := by
  refine ⟨?_, ?_, ?_⟩
  · intro width hwidth width' hwidth' n rest hn hn'
    exact ⟨ofNat n, writeNat_eq_ok_iff.mpr ⟨hwidth, hn, rfl⟩, readNat_ofNat hwidth' hn' rest⟩
  · intro width hwidth width' hwidth' v rest hv hv'
    exact ⟨ofInt v, writeInt_eq_ok_iff.mpr ⟨hwidth, hv, rfl⟩, readInt_ofInt hwidth' hv' rest⟩
  · intro ps gs h
    obtain ⟨bs, hputs, hgets⟩ := runAll_of_matches h []
    have hempty := hgets []
    rw [List.append_nil] at hempty
    exact ⟨bs, hputs, hempty⟩

/-- Numbers on both sides of zero, put and got at different widths. -/
theorem mixed_puts_return :
    let ps : List Put := [.unsigned 4 300, .signed 8 (-9223372036854775808), .signed 1 64]
    let gs : List Get := [.unsigned 2, .signed 8, .signed 4]
    (∃ bs, writeNat 4 300 = .ok bs ∧ readNat 2 (bs ++ [0x80]) = (.ok 300, [0x80])) ∧
      (∃ bs, writeInt 1 64 = .ok bs ∧ readInt 4 (bs ++ [0x80]) = (.ok 64, [0x80])) ∧
      ∃ bs, Put.runAll [] ps = .ok bs ∧
        Get.runAll gs bs = (.ok [300, -9223372036854775808, 64], []) := by
  intro ps gs
  have hmatches : List.Forall₂ Put.Matches ps gs :=
    .cons (.unsigned (by decide) (by decide)) <| .cons (.signed (by decide) (by decide)) <|
      .cons (.signed (by decide) (by decide)) .nil
  exact ⟨gets_return_puts.1 4 (by decide) 2 (by decide) 300 [0x80] (by decide) (by decide),
    gets_return_puts.2.1 1 (by decide) 4 (by decide) 64 [0x80] (by decide) (by decide),
    gets_return_puts.2.2 ps gs hmatches⟩

end Base128

end TaggedWire
