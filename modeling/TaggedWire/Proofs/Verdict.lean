import TaggedWire.Proofs.Refinement
import TaggedWire.Proofs.Sizes

namespace TaggedWire

open Layout

/-- The faults of a value that has no wire form at any depth. -/
def Fault.IsShape : Fault → Prop
  | unsupported (.float _) | unsupportedElement _ | kindMismatch .. => True
  | _ => False

def Fault.IsCodec : Fault → Prop
  | codec _ => True
  | _ => False

/-- What a layout needs: kinds that have a form, depth, and room for counts and sizes. -/
structure Needs where
  formed : Prop
  shallow : Prop
  small : Prop

namespace Needs

variable {limit : Nat} {f : Fault} {n m : Needs}

def Met (n : Needs) : Prop := n.formed ∧ n.shallow ∧ n.small

def Explains (n : Needs) (limit : Nat) (f : Fault) : Prop :=
  (f = .depthExceeded limit ∧ ¬ n.shallow) ∨ (f.IsShape ∧ ¬ n.formed) ∨ (f.IsCodec ∧ ¬ n.small)

def Implies (n m : Needs) : Prop :=
  (n.formed → m.formed) ∧ (n.shallow → m.shallow) ∧ (n.small → m.small)

theorem Implies.met (h : n.Implies m) (hn : n.Met) : m.Met :=
  ⟨h.1 hn.1, h.2.1 hn.2.1, h.2.2 hn.2.2⟩

theorem Explains.mono (h : m.Explains limit f) (hnm : n.Implies m) : n.Explains limit f := by
  rcases h with ⟨hf, hm⟩ | ⟨hf, hm⟩ | ⟨hf, hm⟩
  · exact .inl ⟨hf, mt hnm.2.1 hm⟩
  · exact .inr (.inl ⟨hf, mt hnm.1 hm⟩)
  · exact .inr (.inr ⟨hf, mt hnm.2.2 hm⟩)

theorem Explains.not_met (h : n.Explains limit f) : ¬ n.Met := by
  intro hmet
  obtain ⟨hformed, hshallow, hsmall⟩ := hmet
  rcases h with ⟨-, h⟩ | ⟨-, h⟩ | ⟨-, h⟩
  · exact h hshallow
  · exact h hformed
  · exact h hsmall

def and (n m : Needs) : Needs where
  formed := n.formed ∧ m.formed
  shallow := n.shallow ∧ m.shallow
  small := n.small ∧ m.small

theorem and_left : (n.and m).Implies n := ⟨And.left, And.left, And.left⟩

theorem and_right : (n.and m).Implies m := ⟨And.right, And.right, And.right⟩

def all {α : Type} (as : List α) (n : α → Needs) : Needs where
  formed := ∀ a ∈ as, (n a).formed
  shallow := ∀ a ∈ as, (n a).shallow
  small := ∀ a ∈ as, (n a).small

theorem all_cons {α : Type} (a : α) (as : List α) (n : α → Needs) :
    all (a :: as) n = (n a).and (all as n) := by
  simp only [all, and, List.forall_mem_cons]

end Needs

/-- The layout succeeds with so many bytes when the needs are met, and otherwise fails by one that
is not. -/
def Layout.Judged (l : Layout) (limit : Nat) (n : Needs) (length : Nat) : Prop :=
  match l with
  | .ok x => n.Met ∧ x.length = length
  | .error f => n.Explains limit f

namespace Layout.Judged

variable {l l' : Layout} {limit a b : Nat} {n m : Needs}

theorem congr (h : l.Judged limit n a) (hf : n.formed ↔ m.formed) (hd : n.shallow ↔ m.shallow)
    (hs : n.small ↔ m.small) (hab : a = b) : l.Judged limit m b := by
  subst hab
  cases l with
  | ok x => exact ⟨Needs.Implies.met ⟨hf.mp, hd.mp, hs.mp⟩ h.1, h.2⟩
  | error f => exact Needs.Explains.mono h ⟨hf.mpr, hd.mpr, hs.mpr⟩

theorem of_eq (h : l.Judged limit n a) (hl : l = l') : l'.Judged limit n a := hl ▸ h

theorem seq (h : l.Judged limit n a) (h' : l'.Judged limit m b) :
    Judged (do return (← l) ++ (← l')) limit (n.and m) (a + b) := by
  cases l with
  | error f => exact Needs.Explains.mono h Needs.and_left
  | ok x =>
    obtain ⟨hn, hx⟩ : n.Met ∧ x.length = a := h
    cases l' with
    | error f => exact Needs.Explains.mono h' Needs.and_right
    | ok y =>
      obtain ⟨hm, hy⟩ : m.Met ∧ y.length = b := h'
      exact ⟨⟨⟨hn.1, hm.1⟩, ⟨hn.2.1, hm.2.1⟩, hn.2.2, hm.2.2⟩, by rw [List.length_append, hx, hy]⟩

theorem concat {α : Type} {f : α → Layout} {n : α → Needs} {c : α → Nat} {as : List α}
    (h : ∀ a ∈ as, (f a).Judged limit (n a) (c a)) :
    (concat (as.map f)).Judged limit (.all as n) (as.map c).sum := by
  induction as with
  | nil =>
    refine ⟨⟨?_, ?_, ?_⟩, rfl⟩ <;> exact fun a ha ↦ absurd ha List.not_mem_nil
  | cons a as ih =>
    have hrest := ih fun b hb ↦ h b (List.mem_cons_of_mem a hb)
    rw [Needs.all_cons]
    exact (h a List.mem_cons_self).seq hrest

theorem check {x : Except Fault Unit} {P : Prop} (hok : x = .ok () ↔ P)
    (hshape : ∀ f, x = .error f → f.IsShape) (h : l.Judged limit n a) :
    Judged (do x; l) limit { n with formed := P ∧ n.formed } a := by
  cases x with
  | error f =>
    have hp : ¬ P := fun hp ↦ by cases hok.mpr hp
    exact .inr (.inl ⟨hshape f rfl, fun h ↦ hp h.1⟩)
  | ok =>
    have hp : P := hok.mp rfl
    exact h.congr (and_iff_right hp).symm .rfl .rfl rfl

theorem within {o : Options} {depth : Nat} (h : l.Judged o.maxDepth n a) :
    (within o depth l).Judged o.maxDepth
      { n with shallow := depth < o.maxDepth ∧ n.shallow } a := by
  by_cases hd : depth < o.maxDepth
  · rw [Layout.within, if_pos hd]
    exact h.congr .rfl (and_iff_right hd).symm .rfl rfl
  · rw [Layout.within, if_neg hd]
    exact .inl ⟨rfl, fun hs ↦ hd hs.1⟩

theorem object (h : l.Judged limit n a) :
    Judged (do Piece.object (← l)) limit
      { n with small := n.small ∧ a + Frame.headerSize + Frame.markerCount < capacity Frame.headerSize }
      (1 + Frame.headerSize + Frame.markerCount + a) := by
  cases l with
  | error f => exact Needs.Explains.mono h ⟨id, id, And.left⟩
  | ok x =>
    obtain ⟨hn, rfl⟩ : n.Met ∧ x.length = a := h
    by_cases hsize : Frame.size x < capacity Frame.headerSize
    · have hx : Piece.object x = .ok (Frame.around x) := Piece.object_eq_ok.mpr ⟨hsize, rfl⟩
      rw [ok_bind, hx]
      refine ⟨⟨hn.1, hn.2.1, hn.2.2, hsize⟩, ?_⟩
      rw [Frame.length_around, Frame.size_eq]
      omega
    · rw [ok_bind, Piece.object, if_neg hsize]
      exact .inr (.inr ⟨trivial, fun hs ↦ hsize hs.2⟩)

theorem count (k : Nat) :
    Judged (Piece.count k) limit ⟨True, True, k < capacity 4⟩ (Base128.ofNat k).length := by
  by_cases hk : k < capacity 4
  · rw [Piece.count_eq_ok.mpr ⟨hk, rfl⟩]
    exact ⟨⟨trivial, trivial, hk⟩, rfl⟩
  · unfold Piece.count
    rw [if_neg hk]
    exact .inr (.inr ⟨trivial, hk⟩)

end Layout.Judged

end TaggedWire
