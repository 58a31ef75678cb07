import TaggedWire.Proofs.SortedMap

namespace TaggedWire

open Layout

def Layout.Alike (l m : Layout) : Prop := ∀ x, l = .ok x ↔ m = .ok x

namespace Layout.Alike

variable {l m n : Layout}

theorem refl (l : Layout) : l.Alike l := fun _ ↦ .rfl

theorem trans (h : l.Alike m) (h' : m.Alike n) : l.Alike n := fun x ↦ (h x).trans (h' x)

theorem within {o o' : Options} (ho : o.maxDepth = o'.maxDepth) {d : Nat} (h : l.Alike m) :
    (within o d l).Alike (within o' d m) := by
  intro x
  rw [within_eq_ok, within_eq_ok, ho, h x]

theorem concat {α β : Type} {f : α → Layout} {g : β → Layout} {as : List α} {bs : List β}
    (h : List.Forall₂ (fun a b ↦ (f a).Alike (g b)) as bs) :
    (Layout.concat (as.map f)).Alike (Layout.concat (bs.map g)) := by
  induction h with
  | nil => exact refl _
  | cons hab _ ih =>
    intro x
    simp only [List.map_cons, concat_cons, bind_eq_ok, pure_eq_ok, hab _, ih _]

end Layout.Alike

theorem forall₂_map_self {α β : Type} {R : α → β → Prop} {f : α → β} {l : List α}
    (h : ∀ a ∈ l, R a (f a)) : List.Forall₂ R l (l.map f) :=
  List.forall₂_map_right_iff.mpr (List.forall₂_same.mpr h)

theorem forall_mem_iff_of_forall₂ {α β : Type} {R : α → β → Prop} {P : α → Prop} {Q : β → Prop}
    {l : List α} {m : List β} (h : List.Forall₂ R l m) (hPQ : ∀ a b, R a b → (P a ↔ Q b)) :
    (∀ a ∈ l, P a) ↔ ∀ b ∈ m, Q b := by
  induction h with
  | nil => simp
  | cons hab _ ih => rw [List.forall_mem_cons, List.forall_mem_cons, hPQ _ _ hab, ih]

namespace Value

variable {o o' : Options} {d : Nat} {u v w : Value} {vs ws : List Value}

/-- The two values are of one kind and laid out alike at every depth. -/
structure Alike (o o' : Options) (v w : Value) : Prop where
  kind : v.kind = w.kind
  layout : ∀ d, (v.layout o d).Alike (w.layout o' d)

theorem concat_alike (h : List.Forall₂ (Alike o o') vs ws) (d : Nat) :
    (concat (vs.map fun v ↦ v.layout o d)).Alike (concat (ws.map fun w ↦ w.layout o' d)) :=
  .concat (h.imp fun _ _ hvw ↦ hvw.layout d)

namespace Alike

theorem refl (v : Value) : Alike o o v v := ⟨rfl, fun _ ↦ .refl _⟩

theorem trans (h : Alike o o u v) (h' : Alike o o v w) : Alike o o u w :=
  ⟨h.kind.trans h'.kind, fun d ↦ (h.layout d).trans (h'.layout d)⟩

theorem of_body (ho : o.maxDepth = o'.maxDepth) (hk : v.kind = w.kind)
    (h : ∀ d, (v.body o d).Alike (w.body o' d)) : Alike o o' v w :=
  ⟨hk, fun d ↦ (h (d + 1)).within ho⟩

theorem pointer (ho : o.maxDepth = o'.maxDepth) (h : Alike o o' v w) :
    Alike o o' (pointer v) (pointer w) := by
  refine of_body ho rfl fun d x ↦ ?_
  simp only [body_pointer_eq_ok, h.layout d _]

theorem plain (ho : o.maxDepth = o'.maxDepth) (h : List.Forall₂ (Alike o o') vs ws) :
    Alike o o' (object (.plain vs)) (object (.plain ws)) := by
  refine of_body ho rfl fun d x ↦ ?_
  simp only [body_plain_eq_ok, concat_alike h d _]

theorem array {k : Kind} (ho : o.maxDepth = o'.maxDepth) (ha : o.integerArrays = o'.integerArrays)
    (h : List.Forall₂ (Alike o o') vs ws) : Alike o o' (array k vs) (array k ws) := by
  refine of_body ho rfl fun d x ↦ ?_
  cases h with
  | nil => exact .rfl
  | @cons v w vs ws hv hvs =>
    have hall : List.Forall₂ (Alike o o') (v :: vs) (w :: ws) := .cons hv hvs
    have hkinds : (∀ a ∈ v :: vs, a.kind = k) ↔ ∀ b ∈ w :: ws, b.kind = k :=
      forall_mem_iff_of_forall₂ hall fun a b hab ↦ by rw [hab.kind]
    simp only [body_array_cons_eq_ok, ha, hall.length_eq, hkinds, concat_alike hall d _]

theorem entry {a b : Value × Value} (hkey : Alike o o' a.1 b.1) (hvalue : Alike o o' a.2 b.2)
    (ho : o.maxDepth = o'.maxDepth) :
    (entryLayout o d a).Alike (entryLayout o' d b) := by
  intro x
  simp only [entryLayout_eq_ok, ho, hkey.layout (d + 1) _, hvalue.layout (d + 1) _]

variable {j k : Kind} {es fs : List (Value × Value)}

theorem laidInOrder (h : List.Forall₂ (fun a b ↦ Alike o o' a.1 b.1 ∧ Alike o o' a.2 b.2) es fs)
    (ho : o.maxDepth = o'.maxDepth) {x : List UInt8} :
    LaidInOrder o d j k es x ↔ LaidInOrder o' d j k fs x := by
  have hkinds : (∀ a ∈ es, a.1.kind = j ∧ a.2.kind = k) ↔ ∀ b ∈ fs, b.1.kind = j ∧ b.2.kind = k :=
    forall_mem_iff_of_forall₂ h fun a b hab ↦ by rw [hab.1.kind, hab.2.kind]
  have hconcat : (concat (es.map (entryLayout o d))).Alike (concat (fs.map (entryLayout o' d))) :=
    .concat (h.imp fun a b hab ↦ entry hab.1 hab.2 ho)
  rw [LaidInOrder, LaidInOrder, hkinds, h.length_eq]
  exact and_congr_right fun _ ↦ and_congr_right fun _ ↦
    exists_congr fun rest ↦ and_congr_left fun _ ↦ hconcat rest

theorem map (ho : o.sortedMaps = true) (hfree : ∀ a ∈ es, a.1.CustomFree)
    (h : List.Forall₂ (fun a b ↦ a.1 = b.1 ∧ Alike o o a.2 b.2) es fs) :
    Alike o o (map j k es) (map j k fs) := by
  refine of_body rfl rfl fun d x ↦ ?_
  rcases eq_or_ne es [] with rfl | hes
  · cases h
    exact .rfl
  have hfs : fs ≠ [] := fun hnil ↦ hes (List.forall₂_nil_right_iff.mp (hnil ▸ h))
  have hfree' : ∀ b ∈ fs, b.1.CustomFree :=
    (forall_mem_iff_of_forall₂ h fun a b hab ↦ by rw [hab.1]).mp hfree
  have hsort : List.Forall₂ _ (Entry.sort j Prod.fst (keyBytes o) es) (Entry.sort j Prod.fst (keyBytes o) fs) :=
    Entry.forall₂_sort h fun a b hab ↦ tied_of_eq hab.1
  rw [body_sorted_map_eq_ok ho hes hfree, body_sorted_map_eq_ok ho hfs hfree']
  exact laidInOrder (hsort.imp fun a b hab ↦ ⟨hab.1 ▸ refl a.1, hab.2⟩) rfl

theorem map_of_perm (ho : o.sortedMaps = true) (hfree : (Value.map j k es).CustomFree)
    (hp : es.Perm fs) (hties : ∀ d, Writable o d j k es →
      ∀ a ∈ es, ∀ b ∈ es, Entry.Tied j (keyBytes o) a b → payload o a = payload o b) :
    Alike o o (Value.map j k es) (Value.map j k fs) := by
  refine of_body rfl rfl fun d x ↦ ?_
  rcases eq_or_ne es [] with rfl | hes
  · rw [List.nil_perm.mp hp]
  have hfs : fs ≠ [] := fun hnil ↦ hes (List.perm_nil.mp (hnil ▸ hp))
  have hfree' : (Value.map j k fs).CustomFree :=
    customFree_map.mpr fun a ha ↦ hfree.map a (hp.mem_iff.mpr ha)
  have hwritable : Writable o d j k es ↔ Writable o d j k fs := ⟨(·.perm hp), (·.perm hp.symm)⟩
  rw [body_eq_sortedMap ho hes hfree, body_eq_sortedMap ho hfs hfree', ← hwritable]
  exact and_congr_right fun hw ↦ by rw [sortedMap_eq_of_perm hp (hties d hw)]

end Alike

end Value

end TaggedWire
