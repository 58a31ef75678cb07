import TaggedWire.Proofs.Delimiting
import TaggedWire.Proofs.Lengths
import TaggedWire.Proofs.Refinement

namespace TaggedWire

namespace Opening

def isWhole : Opening → Bool
  | bool _ => true
  | int _ empty | text empty | pointer empty | array _ empty => empty
  | object => false

def isSequence : Opening → Bool
  | text _ | array .. => true
  | bool _ | int .. | pointer _ | object => false

theorem isEmpty_tag (p : Opening) : p.tag.isEmpty = p.isWhole := by
  have h : ∀ p ∈ all, p.tag.isEmpty = p.isWhole := by decide
  exact h p (mem_all p)

theorem isArray_tag (p : Opening) : p.tag.isArray = p.isSequence := by
  have h : ∀ p ∈ all, p.tag.isArray = p.isSequence := by decide
  exact h p (mem_all p)

/-- No value opens with a reserved code or with a marker of a frame, whatever the two flags. -/
theorem base_tag (p : Opening) :
    p.tag.base ∉ Tag.reserved ∧
      p.tag.base ∉ [Tag.payloadBegin, Tag.payloadEnd, Tag.objectEnd] := by
  have h : ∀ p ∈ all, p.tag.base ∉ Tag.reserved ∧
      p.tag.base ∉ [Tag.payloadBegin, Tag.payloadEnd, Tag.objectEnd] := by decide
  exact h p (mem_all p)

def Leads (p : Opening) (x : List UInt8) : Prop :=
  ∃ rest, x = p.tag :: rest ∧ (rest = [] ↔ p.isWhole)

namespace Leads

variable {p : Opening} {rest : List UInt8}

theorem alone (h : p.isWhole) : p.Leads [p.tag] := ⟨[], rfl, iff_of_true rfl h⟩

theorem more (h : p.isWhole = false) (hrest : rest ≠ []) : p.Leads (p.tag :: rest) :=
  ⟨rest, rfl, iff_of_false hrest (by simp [h])⟩

end Leads

end Opening

open Layout Opening

theorem Base128.ofNat_ne_nil (n : Nat) : ofNat n ≠ [] :=
  List.ne_nil_of_length_pos (length_ofNat_pos n)

namespace Piece

theorem payload_ne_nil (n : Integer) : payload n ≠ [] := by
  unfold payload
  split
  · exact List.cons_ne_nil _ _
  · split
    · exact List.ne_nil_of_length_pos (Base128.length_ofInt_pos n.val)
    · exact Base128.ofNat_ne_nil _

theorem integer_leads (n : Integer) : (Value.int n).opening.Leads (integer n) := by
  by_cases h : n.val = 0
  · have hopening : (Value.int n).opening = .int n.kind true := by simp [Value.opening, h]
    rw [hopening, integer, if_pos h]
    exact .alone rfl
  · have hopening : (Value.int n).opening = .int n.kind false := by simp [Value.opening, h]
    rw [hopening, integer, if_neg h]
    exact .more rfl (payload_ne_nil n)

end Piece

namespace Value

variable {o : Options} {d : Nat} {v : Value} {x : List UInt8}

theorem body_ne_nil (h : v.CustomFree) (hx : v.body o d = .ok x) : x ≠ [] := by
  cases v with
  | bool | nil =>
    cases hx
    exact List.cons_ne_nil _ _
  | int n =>
    cases hx
    obtain ⟨rest, hrest⟩ := Piece.integer_cons n
    exact hrest ▸ List.cons_ne_nil _ _
  | float => cases hx
  | text s =>
    obtain ⟨rest, rfl⟩ := Layout.text_cons hx
    exact List.cons_ne_nil _ _
  | bytes bs =>
    rw [body, Layout.bytes] at hx
    split at hx
    · cases hx
      exact List.cons_ne_nil _ _
    · simp only [bind_eq_ok, pure_eq_ok, Piece.count_eq_ok] at hx
      obtain ⟨_, ⟨-, rfl⟩, rfl⟩ := hx
      simp [Base128.ofNat_ne_nil]
  | pointer v =>
    obtain ⟨y, -, rfl⟩ := body_pointer_eq_ok.mp hx
    exact List.cons_ne_nil _ _
  | object o =>
    cases o with
    | plain vs =>
      obtain ⟨p, -, -, rfl⟩ := body_plain_eq_ok.mp hx
      exact List.cons_ne_nil _ _
    | custom => exact absurd h not_customFree_custom
  | array k vs =>
    cases vs with
    | nil =>
      have hempty : Piece.emptyArray k = .ok x := hx
      cases k <;> cases hempty <;> exact List.cons_ne_nil _ _
    | cons v vs =>
      obtain ⟨tag, rest, -, -, -, -, rfl⟩ := body_array_cons_eq_ok.mp hx
      simp [Base128.ofNat_ne_nil]
  | map j k es =>
    cases es with
    | nil =>
      cases hx
      exact List.cons_ne_nil _ _
    | cons a es =>
      obtain ⟨-, -, arranged, rest, -, -, rfl⟩ := body_map_cons_eq_ok.mp hx
      exact List.cons_ne_nil _ _

theorem isWhole_opening (hx : v.body o d = .ok x) :
    v.opening.isWhole ↔ v.kind = .bool ∨ v.isZero := by
  cases v with
  | float => cases hx
  | array k vs => cases k <;> cases vs <;> simp [opening, isWhole, kind, isZero]
  | _ => simp [opening, isWhole, kind, isZero]

theorem isSequence_opening :
    v.opening.isSequence ↔
      v.kind ∈ [.text, .array, .map] ∧ ∀ vs, v = array .text vs → vs = [] := by
  cases v with
  | array k vs => cases k <;> cases vs <;> simp [opening, isSequence, kind]
  | _ => simp [opening, isSequence, kind]

theorem body_leads (h : v.CustomFree) (ho : o.integerArrays = .tagged) (hx : v.body o d = .ok x) :
    v.opening.Leads x := by
  cases v with
  | bool | nil =>
    cases hx
    exact .alone rfl
  | int n =>
    cases hx
    exact Piece.integer_leads n
  | float => cases hx
  | text s =>
    obtain ⟨hs, rfl⟩ | ⟨hs, -, rfl⟩ := Layout.text_eq_ok.mp hx
    · rw [opening, hs]
      exact .alone rfl
    · rw [opening, Bool.eq_false_of_not_eq_true hs]
      exact .more rfl (by simp [Base128.ofNat_ne_nil])
  | bytes bs =>
    rw [body, ho] at hx
    cases bs with
    | nil =>
      cases hx
      exact .alone rfl
    | cons b bs =>
      obtain ⟨-, rfl⟩ := Layout.bytes_cons_eq_ok.mp hx
      exact .more rfl (by simp [Base128.ofNat_ne_nil])
  | pointer v =>
    obtain ⟨y, hy, rfl⟩ := body_pointer_eq_ok.mp hx
    exact .more rfl (body_ne_nil h.pointer (layout_eq_ok.mp hy).2)
  | object u =>
    cases u with
    | plain vs =>
      obtain ⟨p, -, -, rfl⟩ := body_plain_eq_ok.mp hx
      exact .more rfl (by simp)
    | custom => exact absurd h not_customFree_custom
  | array k vs =>
    -- Texts in a row have the tag of a number, which is not the opening of other arrays.
    by_cases hk : k = .text
    · subst hk
      cases vs with
      | nil =>
        cases hx
        exact .alone rfl
      | cons v vs =>
        obtain ⟨_, rest, ⟨⟩, -, -, -, rfl⟩ := body_array_cons_eq_ok.mp hx
        exact .more rfl (by simp [Base128.ofNat_ne_nil])
    · rw [opening_array hk]
      cases vs with
      | nil =>
        obtain ⟨-, rfl⟩ := Piece.emptyArray_eq_ok hk hx
        exact .alone rfl
      | cons v vs =>
        obtain ⟨tag, rest, htag, -, -, -, rfl⟩ := body_array_cons_eq_ok.mp hx
        obtain ⟨-, rfl⟩ := Piece.arrayTag_eq_ok hk (ho ▸ htag)
        exact .more rfl (by simp [Base128.ofNat_ne_nil])
  | map j k es =>
    cases es with
    | nil =>
      cases hx
      exact .alone rfl
    | cons e es =>
      obtain ⟨-, -, arranged, rest, -, -, rfl⟩ := body_map_cons_eq_ok.mp hx
      exact .more rfl (by simp [Base128.ofNat_ne_nil])

/-- In the tagged form the first byte tells the class of a value: it has the empty bit when nothing
follows it, which is so for the booleans and the zeros, and the array bit for the sequences, though
not for texts in a row. -/
theorem encode_leading (v : Value) (h : v.CustomFree) (o : Options)
    (ho : o.integerArrays = .tagged) (bs : List UInt8) (hbs : v.encode o = .ok bs) :
    ∃ (t : Tag) (rest : List UInt8), bs = t :: rest ∧
      (t.isEmpty ↔ rest = []) ∧ (rest = [] ↔ v.kind = .bool ∨ v.isZero) ∧
      (t.isArray ↔ v.kind ∈ [.text, .array, .map] ∧ ∀ vs, v = array .text vs → vs = []) ∧
      t.base ∉ Tag.reserved ∧ t.base ∉ [Tag.payloadBegin, Tag.payloadEnd, Tag.objectEnd] := by
  have hbody := body_of_encode h hbs
  obtain ⟨rest, rfl, hwhole⟩ := body_leads h ho hbody
  refine ⟨v.opening.tag, rest, rfl, ?_, hwhole.trans (isWhole_opening hbody), ?_, base_tag v.opening⟩
  · rw [isEmpty_tag, hwhole]
  · rw [isArray_tag, isSequence_opening]

/-- Texts in a row start like a number, although their empty row has the array bit. -/
theorem texts_encode_leading :
    let v := array .text [text ""]
    v.encode { integerArrays := .tagged } = .ok [0x08, 1, 0xCD] ∧
      ¬ Tag.isEmpty 0x08 ∧ ¬ v.isZero ∧ ¬ Tag.isArray 0x08 ∧
      (array .text []).encode { integerArrays := .tagged } = .ok [0xC8] ∧ Tag.isArray 0xC8 := by
  intro v
  have hrow : v.encode { integerArrays := .tagged } = .ok [0x08, 1, 0xCD] :=
    eq_ok_of_toOption (by decide +kernel)
  have hempty : (array .text []).encode { integerArrays := .tagged } = .ok [0xC8] :=
    eq_ok_of_toOption (by decide +kernel)
  obtain ⟨t, rest, ht, hbit, hzero, harray, -⟩ := encode_leading v (by decide) _ rfl _ hrow
  obtain ⟨t', rest', ht', -, -, harray', -⟩ := encode_leading _ (by decide) _ rfl _ hempty
  cases ht
  cases ht'
  have hmore : ¬ [(1 : UInt8), 0xCD] = [] := List.cons_ne_nil _ _
  refine ⟨hrow, mt hbit.mp hmore, fun h ↦ hmore (hzero.mpr (.inr h)), ?_, hempty, ?_⟩
  · rw [harray]
    intro h
    cases h.2 _ rfl
  · rw [harray']
    exact ⟨by decide, fun vs hvs ↦ by cases hvs; rfl⟩

end Value

end TaggedWire
