import TaggedWire.Proofs.Delimiting

namespace TaggedWire

/-- `Wires vs bs`: the values one after the other have the tagged form `bs`. An array opens the row
of its items, so nothing but the payload of an object is nested. -/
inductive Wires : List Value → List UInt8 → Prop
  | done : Wires [] []
  | bool {vs bs} (b : Bool) : Wires vs bs → Wires (.bool b :: vs) ((Tag.ofBool b).asEmpty :: bs)
  | int {vs bs} (n : Integer) : Wires vs bs → Wires (.int n :: vs) (Piece.integer n ++ bs)
  | text {vs bs t} (s : String) :
      Layout.text s = .ok t → Wires vs bs → Wires (.text s :: vs) (t ++ bs)
  | null {vs bs} : Wires vs bs → Wires (.nil :: vs) (Tag.pointer.asEmpty :: bs)
  | pointer {v vs bs} : Wires (v :: vs) bs → Wires (.pointer v :: vs) (Tag.pointer :: bs)
  | object {ws vs p bs} :
      Wires ws p → Frame.size p < capacity Frame.headerSize → Wires vs bs →
      Wires (.object (.plain ws) :: vs) (Frame.around p ++ bs)
  | emptyArray {k vs t bs} :
      k ≠ .text → Piece.emptyArray k = .ok t → Wires vs bs → Wires (.array k [] :: vs) (t ++ bs)
  | array {k w ws vs t bs} :
      k ≠ .text → Piece.arrayTag .tagged k = .ok t → Wires (w :: ws ++ vs) bs →
      Wires (.array k (w :: ws) :: vs) (t ++ Base128.ofNat (w :: ws).length ++ bs)

namespace Wires

variable {v : Value} {vs ws : List Value} {x y r s : List UInt8}

theorem opening (h : Wires (v :: vs) x) : ∃ rest, x = v.opening.tag :: rest := by
  cases h with
  | bool b h => exact ⟨_, rfl⟩
  | int n h =>
    obtain ⟨rest, hrest⟩ := Piece.integer_cons n
    exact ⟨rest ++ _, by rw [hrest, List.cons_append]⟩
  | text t ht h =>
    obtain ⟨rest, rfl⟩ := Layout.text_cons ht
    exact ⟨rest ++ _, rfl⟩
  | null h => exact ⟨_, rfl⟩
  | pointer h => exact ⟨_, rfl⟩
  | object hp hs h => exact ⟨_, rfl⟩
  | emptyArray hk ht h =>
    obtain ⟨-, rfl⟩ := Piece.emptyArray_eq_ok hk ht
    exact ⟨_, by rw [Value.opening_array hk]; rfl⟩
  | array hk ht h =>
    obtain ⟨-, rfl⟩ := Piece.arrayTag_eq_ok hk ht
    exact ⟨_, by rw [Value.opening_array hk]; rfl⟩

theorem nil_iff (h : Wires vs []) : vs = [] := by
  cases vs with
  | nil => rfl
  | cons v vs =>
    obtain ⟨rest, hrest⟩ := h.opening
    cases hrest

theorem exists_cons (hv : Wires (v :: vs) x) (hw : Wires ws y)
    (hl : (v :: vs).length = ws.length ∨ r = [] ∧ s = []) (h : x ++ r = y ++ s) :
    ∃ w ws', ws = w :: ws' ∧ v.opening = w.opening ∧ (vs.length = ws'.length ∨ r = [] ∧ s = []) := by
  cases ws with
  | cons w ws =>
    exact ⟨w, ws, rfl, Opening.eq_of_append hv.opening hw.opening h, by simpa using hl⟩
  | nil =>
    cases hw
    obtain hl | ⟨rfl, rfl⟩ := hl
    · cases hl
    · obtain rfl : x = [] := by simpa using h
      cases hv.nil_iff

/-- Two rows of equally many values whose forms agree up to what follows are the same, and so are
two rows that are followed by nothing. -/
theorem unique (hv : Wires vs x) (hw : Wires ws y)
    (hl : vs.length = ws.length ∨ r = [] ∧ s = []) (h : x ++ r = y ++ s) : vs = ws ∧ r = s := by
  induction hv generalizing ws y r s with
  | done =>
    cases ws with
    | nil =>
      cases hw
      exact ⟨rfl, h⟩
    | cons w ws =>
      obtain hl | ⟨rfl, rfl⟩ := hl
      · cases hl
      · obtain rfl : y = [] := by simpa using h.symm
        cases hw.nil_iff
  | bool b hv ih =>
    obtain ⟨w, ws, rfl, ho, hl'⟩ := (bool b hv).exists_cons hw hl h
    cases hw with
    | bool c hw =>
      cases ho
      obtain ⟨rfl, rfl⟩ := ih hw hl' (List.tail_eq_of_cons_eq h)
      exact ⟨rfl, rfl⟩
    | _ => simp_all [Value.opening]
  | int n hv ih =>
    obtain ⟨w, ws, rfl, ho, hl'⟩ := (int n hv).exists_cons hw hl h
    cases hw with
    | int m hw =>
      rw [List.append_assoc, List.append_assoc] at h
      obtain ⟨rfl, hrest⟩ := Piece.integer_append_inj h
      obtain ⟨rfl, rfl⟩ := ih hw hl' hrest
      exact ⟨rfl, rfl⟩
    | _ => simp_all [Value.opening]
  | text t ht hv ih =>
    obtain ⟨w, ws, rfl, ho, hl'⟩ := (text t ht hv).exists_cons hw hl h
    cases hw with
    | text u hu hw =>
      rw [List.append_assoc, List.append_assoc] at h
      obtain ⟨rfl, hrest⟩ := Layout.text_append_inj ht hu h
      obtain ⟨rfl, rfl⟩ := ih hw hl' hrest
      exact ⟨rfl, rfl⟩
    | _ => simp_all [Value.opening]
  | null hv ih =>
    obtain ⟨w, ws, rfl, ho, hl'⟩ := (null hv).exists_cons hw hl h
    cases hw with
    | null hw =>
      obtain ⟨rfl, rfl⟩ := ih hw hl' (List.tail_eq_of_cons_eq h)
      exact ⟨rfl, rfl⟩
    | _ => simp_all [Value.opening]
  | pointer hv ih =>
    obtain ⟨w, ws, rfl, ho, hl'⟩ := (pointer hv).exists_cons hw hl h
    cases hw with
    | pointer hw =>
      obtain ⟨heq, rfl⟩ := ih hw (by simpa using hl') (List.tail_eq_of_cons_eq h)
      cases heq
      exact ⟨rfl, rfl⟩
    | _ => simp_all [Value.opening]
  | object hp hs hv ihp ih =>
    obtain ⟨w, ws, rfl, ho, hl'⟩ := (object hp hs hv).exists_cons hw hl h
    cases hw with
    | object hq ht hw =>
      rw [List.append_assoc, List.append_assoc] at h
      obtain ⟨rfl, hrest⟩ := Frame.around_append_inj hs ht h
      obtain ⟨rfl, -⟩ := ihp hq (.inr ⟨rfl, rfl⟩) rfl
      obtain ⟨rfl, rfl⟩ := ih hw hl' hrest
      exact ⟨rfl, rfl⟩
    | _ => simp_all [Value.opening]
  | emptyArray hk ht hv ih =>
    obtain ⟨w, ws, rfl, ho, hl'⟩ := (emptyArray hk ht hv).exists_cons hw hl h
    cases hw with
    | emptyArray hj hu hw =>
      rw [Value.opening_array hk, Value.opening_array hj, Opening.array.injEq] at ho
      obtain ⟨hke, rfl⟩ := Piece.emptyArray_eq_ok hk ht
      obtain ⟨hje, rfl⟩ := Piece.emptyArray_eq_ok hj hu
      obtain rfl := Kind.eq_of_int? hke hje hk hj ho.1
      obtain ⟨rfl, rfl⟩ := ih hw hl' (List.tail_eq_of_cons_eq h)
      exact ⟨rfl, rfl⟩
    | _ => simp_all [Value.opening]
  | array hk ht hv ih =>
    obtain ⟨w, ws, rfl, ho, hl'⟩ := (array hk ht hv).exists_cons hw hl h
    cases hw with
    | array hj hu hw =>
      rw [Value.opening_array hk, Value.opening_array hj, Opening.array.injEq] at ho
      obtain ⟨hke, rfl⟩ := Piece.arrayTag_eq_ok hk ht
      obtain ⟨hje, rfl⟩ := Piece.arrayTag_eq_ok hj hu
      obtain rfl := Kind.eq_of_int? hke hje hk hj ho.1
      simp only [List.cons_append, List.nil_append, List.append_assoc, List.cons.injEq] at h
      obtain ⟨hcount, hitems⟩ := Base128.ofNat_append_inj h.2
      obtain ⟨heq, rfl⟩ := ih hw (hl'.imp_left fun hl ↦ by
        rw [List.length_append, List.length_append, hcount, hl]) hitems
      obtain ⟨hsame, rfl⟩ := List.append_inj heq hcount
      rw [hsame]
      exact ⟨rfl, rfl⟩
    | _ => simp_all [Value.opening]

end Wires

end TaggedWire
