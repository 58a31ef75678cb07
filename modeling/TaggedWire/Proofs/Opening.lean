import TaggedWire.Layout
import TaggedWire.Proofs.Arrangement

namespace TaggedWire

/-- What the first byte of a tagged value tells. An array shows the kind of its integers, or
`none` when its items are objects. -/
inductive Opening
  | bool (b : Bool)
  | int (k : IntKind) (zero : Bool)
  | text (empty : Bool)
  | pointer (null : Bool)
  | object
  | array (k : Option IntKind) (empty : Bool)
  deriving DecidableEq

namespace Opening

def mark (t : Tag) (empty : Bool) : Tag := if empty then t.asEmpty else t

def tag : Opening → Tag
  | bool b => (Tag.ofBool b).asEmpty
  | int k zero => mark (Tag.ofInt k) zero
  | text empty => mark Tag.text.asArray empty
  | pointer null => mark Tag.pointer null
  | object => Tag.object
  | array none empty => mark Tag.object.asArray empty
  | array (some k) empty => mark (Tag.ofInt k).asArray empty

def all : List Opening :=
  object :: [false, true].flatMap fun b ↦
    [bool b, text b, pointer b, array none b] ++
      IntKind.all.flatMap fun k ↦ [int k b, array (some k) b]

theorem mem_all (o : Opening) : o ∈ all := by
  rcases o with b | ⟨k, b⟩ | b | b | _ | ⟨_ | k, b⟩ <;> simp [all, IntKind.mem_all]

def ofTag (t : Tag) : Option Opening := all.find? (·.tag == t)

theorem ofTag_tag (o : Opening) : ofTag o.tag = some o := by
  have h : ∀ o ∈ all, ofTag o.tag = some o := by decide
  exact h o (mem_all o)

theorem tag_injective {o p : Opening} (h : o.tag = p.tag) : o = p := by
  have ho := ofTag_tag o
  rw [h, ofTag_tag] at ho
  exact (Option.some.inj ho).symm

end Opening

namespace Kind

def int? : Kind → Option IntKind
  | int k => some k
  | _ => none

theorem eq_of_int? {j k : Kind} (hj : j.isElement) (hk : k.isElement) (hjt : j ≠ .text)
    (hkt : k ≠ .text) (h : j.int? = k.int?) : j = k := by
  cases j <;> cases k <;> simp_all [isElement, int?]

end Kind

def Value.opening : Value → Opening
  | bool b => .bool b
  | int n => .int n.kind (n.val == 0)
  | float _ => .object
  | text s => .text s.isEmpty
  | bytes bs => .array (some .u8) bs.isEmpty
  | nil => .pointer true
  | pointer _ => .pointer false
  | object _ => .object
  | array .text items => if items.isEmpty then .array (some .u32) true else .int .u32 false
  | array k items => .array k.int? items.isEmpty
  | map _ _ entries => .array none entries.isEmpty

namespace Value

theorem opening_array {k : Kind} (hk : k ≠ .text) (items : List Value) :
    (array k items).opening = .array k.int? items.isEmpty := by
  cases k <;> first | rfl | contradiction

end Value

namespace Piece

variable {k : Kind} {t : List UInt8}

theorem integer_cons (n : Integer) : ∃ rest, integer n = (Value.int n).opening.tag :: rest := by
  unfold integer
  split <;> rename_i h <;> simp [Value.opening, Opening.tag, Opening.mark, h]

theorem emptyArray_eq_ok (hk : k ≠ .text) (h : emptyArray k = .ok t) :
    k.isElement ∧ t = [(Opening.array k.int? true).tag] := by
  cases k <;> cases h <;> first | exact ⟨rfl, rfl⟩ | contradiction

theorem arrayTag_eq_ok (hk : k ≠ .text) (h : arrayTag .tagged k = .ok t) :
    k.isElement ∧ t = [(Opening.array k.int? false).tag] := by
  cases k <;> cases h <;> first | exact ⟨rfl, rfl⟩ | contradiction

theorem emptyArray_ne_arrayTag {u : List UInt8} (ht : emptyArray k = .ok t)
    (hu : arrayTag .tagged k = .ok u) : ∃ a b, t = [a] ∧ u = [b] ∧ a ≠ b := by
  cases k with
  | text | object =>
    cases ht
    cases hu
    exact ⟨_, _, rfl, rfl, by decide⟩
  | int j =>
    cases ht
    cases hu
    exact ⟨_, _, rfl, rfl, by cases j <;> decide⟩
  | _ => cases ht

end Piece

theorem Layout.text_cons {s : String} {t : List UInt8} (h : Layout.text s = .ok t) :
    ∃ rest, t = (Value.text s).opening.tag :: rest := by
  unfold Layout.text at h
  split at h
  · rename_i hs
    cases h
    simp [Value.opening, Opening.tag, Opening.mark, hs]
  · rename_i hs
    simp only [bind_eq_ok, pure_eq_ok] at h
    obtain ⟨c, -, rfl⟩ := h
    simp [Value.opening, Opening.tag, Opening.mark, hs]

end TaggedWire
