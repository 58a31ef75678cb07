import TaggedWire.Encoder.Basic
import TaggedWire.Proofs.RoundTrip

namespace TaggedWire

namespace Base128

/-- The continuation bit is set on every byte but the last. -/
def Continued (bytes : List UInt8) : Prop :=
  ∃ front last, bytes = front ++ [last] ∧ (∀ b ∈ front, b &&& 0x80 ≠ 0) ∧ last &&& 0x80 = 0

theorem continued_of_closing {bytes : List UInt8} {k : Nat} (h : closing? bytes = some k)
    (hlength : bytes.length = k + 1) : Continued bytes := by
  induction bytes generalizing k with
  | nil => cases h
  | cons b bytes ih =>
    obtain ⟨hb, rfl⟩ | ⟨hb, j, hj, rfl⟩ := closing?_cons_eq_some_iff.mp h
    · obtain rfl : bytes = [] := by simpa using hlength
      have hclear : b &&& 0x80 = 0 := by
        by_contra hset
        exact absurd (continues_iff.mp hset) (Nat.not_le.mpr hb)
      exact ⟨[], b, rfl, fun _ hmem ↦ absurd hmem List.not_mem_nil, hclear⟩
    · obtain ⟨front, last, rfl, hfront, hlast⟩ := ih hj (Nat.succ.inj hlength)
      have hall : ∀ c ∈ b :: front, c &&& 0x80 ≠ 0 :=
        List.forall_mem_cons.mpr ⟨continues_iff.mpr hb, hfront⟩
      exact ⟨b :: front, last, rfl, hall, hlast⟩

theorem Continued.length_pos {bytes : List UInt8} (h : Continued bytes) : 0 < bytes.length := by
  obtain ⟨front, last, rfl, -⟩ := h
  simp

namespace Put

def width : Put → Nat
  | unsigned width _ | signed width _ => width

def Fits : Put → Prop
  | unsigned width n => width ∈ widths ∧ n < capacity width
  | signed width v => width ∈ widths ∧ FitsSigned width v

instance (p : Put) : Decidable p.Fits :=
  match p with
  | unsigned .. => inferInstanceAs (Decidable (_ ∧ _))
  | signed .. => inferInstanceAs (Decidable (_ ∧ _))

def length : Put → Nat
  | unsigned _ n => natLength n
  | signed _ v => intLength v

def write : Put → Write
  | unsigned width n => Write.unsigned width n
  | signed width v => Write.signed width v

def form : Put → Except CodecFault (List UInt8)
  | unsigned width n => writeNat width n
  | signed width v => writeInt width v

variable {p : Put}

theorem run_eq (p : Put) (buffer : List UInt8) : p.run buffer = p.form.map (buffer ++ ·) := by
  cases p <;> rfl

theorem write_eq (p : Put) : p.write = Write.send (p.form.mapError .codec) := by
  cases p <;> rfl

theorem form_of_fits (h : p.Fits) : ∃ bs, p.form = .ok bs ∧ bs.length = p.length ∧
    bs.length ≤ maxLength p.width ∧ Continued bs := by
  cases p with
  | unsigned width n =>
    obtain ⟨hwidth, hn⟩ := h
    obtain ⟨k, hk, hlength, -⟩ := ofNat_closes n []
    rw [List.append_nil] at hk
    exact ⟨ofNat n, writeNat_eq_ok_iff.mpr ⟨hwidth, hn, rfl⟩, length_ofNat n,
      length_ofNat_le hwidth hn, continued_of_closing hk hlength⟩
  | signed width v =>
    obtain ⟨hwidth, hv⟩ := h
    obtain ⟨k, hk, hlength, -⟩ := ofInt_closes v []
    rw [List.append_nil] at hk
    exact ⟨ofInt v, writeInt_eq_ok_iff.mpr ⟨hwidth, hv, rfl⟩, length_ofInt v,
      length_ofInt_le hwidth hv, continued_of_closing hk hlength⟩

theorem form_of_not_fits (h : ¬ p.Fits) : ∃ c, p.form = .error c := by
  cases hform : p.form with
  | error c => exact ⟨c, rfl⟩
  | ok bs =>
    refine absurd ?_ h
    cases p with
    | unsigned width n =>
      obtain ⟨hwidth, hn, -⟩ := writeNat_eq_ok_iff.mp hform
      exact ⟨hwidth, hn⟩
    | signed width v =>
      obtain ⟨hwidth, hv, -⟩ := writeInt_eq_ok_iff.mp hform
      exact ⟨hwidth, hv⟩

/-- An integer that fits its width appends the bytes that its length foretells, one at least and
no more than the width allows. Any other is refused and leaves everything as it was. -/
theorem extends_or_refuses (p : Put) :
    if p.Fits then
      ∃ bs, (∀ buffer, p.run buffer = .ok (buffer ++ bs)) ∧
        (∀ e, p.write e = .ok () (e.put bs)) ∧
        bs.length = p.length ∧ 1 ≤ p.length ∧ p.length ≤ maxLength p.width ∧ Continued bs
    else
      ∃ c, (∀ buffer, p.run buffer = .error c) ∧ ∀ e, p.write e = .error (.fault (.codec c)) e := by
  split
  · rename_i hfits
    obtain ⟨bs, hform, hlength, hmax, hbits⟩ := form_of_fits hfits
    have hpos := hbits.length_pos
    refine ⟨bs, fun buffer ↦ ?_, fun e ↦ ?_, hlength, hlength ▸ hpos, hlength ▸ hmax, hbits⟩
    · rw [run_eq, hform]
      rfl
    · rw [write_eq, hform]
      rfl
  · rename_i hfits
    obtain ⟨c, hform⟩ := form_of_not_fits hfits
    refine ⟨c, fun buffer ↦ ?_, fun e ↦ ?_⟩
    · rw [run_eq, hform]
      rfl
    · rw [write_eq, hform]
      rfl

end Put

end Base128

end TaggedWire
