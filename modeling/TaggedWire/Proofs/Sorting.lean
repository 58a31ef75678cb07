import TaggedWire.Proofs.Arrangement
import TaggedWire.Proofs.Delimiting
import TaggedWire.Proofs.Linear

namespace TaggedWire

theorem Value.eq_of_rank {v w : Value} (hk : v.kind = w.kind) (hn : v.kind.hasNaturalOrder)
    (h : v.rank = w.rank) : v = w := by
  cases v with
  | bool b =>
    cases w with
    | bool c => cases b <;> cases c <;> simp_all [rank]
    | _ => cases hk
  | int n =>
    cases w with
    | int m =>
      rw [kind, kind, Kind.int.injEq] at hk
      exact congrArg int (Integer.eq_of_val hk (List.singleton_inj.mp h))
    | _ => cases hk
  | text s =>
    cases w with
    | text t =>
      have hchars : Function.Injective fun (c : Char) ↦ (c.toNat : Int) :=
        fun c d hcd ↦ Char.toNat_inj.mp (Int.ofNat_inj.mp hcd)
      exact congrArg text (String.toList_inj.mp (hchars.list_map h))
    | _ => cases hk
  | _ => cases hn

namespace Entry

variable {k : Kind} {bytes : Value × Value → List UInt8} {es fs : List (Value × Value)}

theorem sort_ordered (k : Kind) (bytes : Value × Value → List UInt8)
    (es : List (Value × Value)) :
    (k.hasNaturalOrder → (sort k Prod.fst bytes es).Pairwise fun a b ↦ ¬ b.1.rank < a.1.rank) ∧
      (¬ k.hasNaturalOrder → (sort k Prod.fst bytes es).Pairwise fun a b ↦ bytes a ≤ bytes b) := by
  constructor
  · intro hk
    rw [sort, if_pos hk]
    exact (Linear.lex_lt.pairwise_mergeSort (fun a ↦ a.1.rank) es).imp of_decide_eq_true
  · intro hk
    rw [sort, if_neg hk]
    exact (Linear.lex.pairwise_mergeSort bytes es).imp of_decide_eq_true

theorem sort_pair {a b : Value × Value}
    (h : if k.hasNaturalOrder then b.1.rank < a.1.rank else ¬ bytes a ≤ bytes b) :
    sort k Prod.fst bytes [a, b] = [b, a] := by
  by_cases hk : k.hasNaturalOrder
  · rw [if_pos hk] at h
    rw [sort, if_pos hk]
    exact mergeSort_pair (decide_eq_false (not_not_intro h))
  · rw [if_neg hk] at h
    rw [sort, if_neg hk]
    exact mergeSort_pair (decide_eq_false h)

/-- Two entries with nothing between their keys to order them by. -/
def Tied (k : Kind) (bytes : Value × Value → List UInt8) (a b : Value × Value) : Prop :=
  if k.hasNaturalOrder then a.1.rank = b.1.rank else bytes a = bytes b

/-- Behind the sort is one linear order, whether the keys have a natural order or not. -/
theorem exists_linear (k : Kind) (bytes : Value × Value → List UInt8) :
    ∃ (κ : Type) (le : κ → κ → Bool) (key : Value × Value → κ), Linear le ∧
      (∀ es, sort k Prod.fst bytes es = es.mergeSort fun a b ↦ le (key a) (key b)) ∧
      ∀ a b, Tied k bytes a b ↔ key a = key b := by
  by_cases hk : k.hasNaturalOrder
  · exact ⟨List Int, fun a b ↦ ¬ b < a, fun a ↦ a.1.rank, Linear.lex_lt, fun es ↦ if_pos hk,
      fun a b ↦ by rw [Tied, if_pos hk]⟩
  · exact ⟨List UInt8, fun a b ↦ a ≤ b, bytes, Linear.lex, fun es ↦ if_neg hk,
      fun a b ↦ by rw [Tied, if_neg hk]⟩

theorem sort_of_tied (h : ∀ a ∈ es, ∀ b ∈ es, Tied k bytes a b) : sort k Prod.fst bytes es = es := by
  obtain ⟨κ, le, key, hle, hsort, htied⟩ := exists_linear k bytes
  simp only [htied] at h
  rw [hsort]
  exact List.mergeSort_of_pairwise (hle.pairwise_of_eq key h)

theorem map_sort_eq_of_perm {β : Type} {f : Value × Value → β} (hp : es.Perm fs)
    (hf : ∀ a ∈ es, ∀ b ∈ es, Tied k bytes a b → f a = f b) :
    (sort k Prod.fst bytes es).map f = (sort k Prod.fst bytes fs).map f := by
  obtain ⟨κ, le, key, hle, hsort, htied⟩ := exists_linear k bytes
  simp only [htied] at hf
  rw [hsort, hsort]
  exact hle.map_mergeSort_eq_of_perm key hp hf

theorem eq_of_map_sort {β : Type} {f : Value × Value → β}
    (h : ∀ fs, es.Perm fs → (sort k Prod.fst bytes fs).map f = (sort k Prod.fst bytes es).map f)
    {a b : Value × Value} (ha : a ∈ es) (hb : b ∈ es) (hab : Tied k bytes a b) : f a = f b := by
  obtain ⟨κ, le, key, hle, hsort, htied⟩ := exists_linear k bytes
  simp only [hsort] at h
  exact hle.eq_of_map_mergeSort key h ha hb ((htied a b).mp hab)

theorem forall₂_sort {R : Value × Value → Value × Value → Prop} (h : List.Forall₂ R es fs)
    (hR : ∀ a b, R a b → Tied k bytes a b) :
    List.Forall₂ R (sort k Prod.fst bytes es) (sort k Prod.fst bytes fs) := by
  obtain ⟨κ, le, key, -, hsort, htied⟩ := exists_linear k bytes
  rw [hsort, hsort]
  exact forall₂_mergeSort le h fun a b hab ↦ (htied a b).mp (hR a b hab)

theorem order_sorted {encoding : Value × Value → Layout}
    (h : ∀ a ∈ es, encoding a = .ok (bytes a)) :
    Layout.order true k Prod.fst encoding es = .ok (sort k Prod.fst bytes es) := by
  refine Layout.order_sorted_eq_ok.mpr ⟨fun _ a ha ↦ ⟨bytes a, h a ha⟩, sort_congr fun a ha ↦ ?_⟩
  rw [h a ha]
  rfl

end Entry

end TaggedWire
