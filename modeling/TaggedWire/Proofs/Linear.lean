import Mathlib.Data.List.Forall2
import Mathlib.Data.List.Perm.Basic

namespace TaggedWire

theorem forall₂_mergeSort {α β κ : Type} {R : α → β → Prop} {key : α → κ} {key' : β → κ}
    {l : List α} {m : List β} (le : κ → κ → Bool) (h : List.Forall₂ R l m)
    (hkey : ∀ a b, R a b → key a = key' b) :
    List.Forall₂ R (l.mergeSort fun a b ↦ le (key a) (key b))
      (m.mergeSort fun a b ↦ le (key' a) (key' b)) := by
  let sorted := (l.zip m).mergeSort fun p q ↦ le (key p.1) (key q.1)
  obtain ⟨hlength, hzip⟩ := List.forall₂_iff_zip.mp h
  have hl : sorted.map Prod.fst = l.mergeSort fun a b ↦ le (key a) (key b) := by
    have hmap := List.map_mergeSort (f := Prod.fst) (l := l.zip m)
      (r := fun p q ↦ le (key p.1) (key q.1)) (s := fun a b ↦ le (key a) (key b)) (by simp)
    rwa [List.map_fst_zip (Nat.le_of_eq hlength)] at hmap
  have hm : sorted.map Prod.snd = m.mergeSort fun a b ↦ le (key' a) (key' b) := by
    have hmap := List.map_mergeSort (f := Prod.snd) (l := l.zip m)
      (r := fun p q ↦ le (key p.1) (key q.1)) (s := fun a b ↦ le (key' a) (key' b))
      fun p hp q hq ↦ by rw [hkey _ _ (hzip hp), hkey _ _ (hzip hq)]
    rwa [List.map_snd_zip (Nat.le_of_eq hlength.symm)] at hmap
  rw [← hl, ← hm, List.forall₂_map_left_iff, List.forall₂_map_right_iff, List.forall₂_same]
  exact fun p hp ↦ hzip (List.mem_mergeSort.mp hp)

theorem mergeSort_pair {α : Type} {le : α → α → Bool} {a b : α} (h : le a b = false) :
    [a, b].mergeSort le = [b, a] := by
  simp [List.mergeSort, List.MergeSort.Internal.splitInTwo, List.merge, h]

structure Linear {α : Type} (le : α → α → Bool) : Prop where
  trans : ∀ a b c, le a b → le b c → le a c
  total : ∀ a b, le a b || le b a
  antisymm : ∀ a b, le a b → le b a → a = b

namespace Linear

variable {α β κ : Type} {le : κ → κ → Bool}

theorem pairwise_mergeSort (h : Linear le) (key : α → κ) (l : List α) :
    (l.mergeSort fun a b ↦ le (key a) (key b)).Pairwise fun a b ↦ le (key a) (key b) :=
  List.pairwise_mergeSort (fun a b c ↦ h.trans (key a) (key b) (key c))
    (fun a b ↦ h.total (key a) (key b)) l

/-- What the keys tell about the elements comes out in one order, whichever order they were in. -/
theorem map_mergeSort_eq_of_perm (h : Linear le) (key : α → κ) {f : α → β} {l m : List α}
    (hp : l.Perm m) (hf : ∀ a ∈ l, ∀ b ∈ l, key a = key b → f a = f b) :
    (l.mergeSort fun a b ↦ le (key a) (key b)).map f =
      (m.mergeSort fun a b ↦ le (key a) (key b)).map f := by
  let keyed (a : α) : κ × β := (key a, f a)
  have hsorted (l : List α) : ((l.mergeSort fun a b ↦ le (key a) (key b)).map keyed).Pairwise
      fun p q ↦ le p.1 q.1 := List.pairwise_map.mpr (h.pairwise_mergeSort key l)
  have hperm (l : List α) := (List.mergeSort_perm l fun a b ↦ le (key a) (key b)).map keyed
  have heq : (l.mergeSort fun a b ↦ le (key a) (key b)).map keyed =
      (m.mergeSort fun a b ↦ le (key a) (key b)).map keyed := by
    refine List.Perm.eq_of_pairwise ?_ (hsorted l) (hsorted m)
      (((hperm l).trans (hp.map keyed)).trans (hperm m).symm)
    intro p q hpl hqm hpq hqp
    obtain ⟨a, ha, rfl⟩ := List.mem_map.mp ((hperm l).mem_iff.mp hpl)
    obtain ⟨b, hb, rfl⟩ := List.mem_map.mp ((hperm m).mem_iff.mp hqm)
    have hkey : key a = key b := h.antisymm _ _ hpq hqp
    exact Prod.ext hkey (hf a ha b (hp.mem_iff.mpr hb) hkey)
  have hsnd := congrArg (List.map Prod.snd) heq
  rwa [List.map_map, List.map_map] at hsnd

theorem pairwise_of_eq (h : Linear le) (key : α → κ) {l : List α}
    (hl : ∀ a ∈ l, ∀ b ∈ l, key a = key b) : l.Pairwise fun a b ↦ le (key a) (key b) := by
  refine List.pairwise_of_forall_mem_list fun a ha b hb ↦ ?_
  rw [hl a ha b hb, ← Bool.or_self (le (key b) (key b))]
  exact h.total (key b) (key b)

theorem filter_mergeSort [DecidableEq κ] (h : Linear le) (key : α → κ) (c : κ) (l : List α) :
    (l.mergeSort fun a b ↦ le (key a) (key b)).filter (key · = c) = l.filter (key · = c) := by
  have hkey (a) (ha : a ∈ l.filter (key · = c)) : key a = c :=
    of_decide_eq_true (List.mem_filter.mp ha).2
  have htied := h.pairwise_of_eq key fun a ha b hb ↦ (hkey a ha).trans (hkey b hb).symm
  have hsub := List.sublist_mergeSort (fun a b c ↦ h.trans (key a) (key b) (key c))
    (fun a b ↦ h.total (key a) (key b)) htied List.filter_sublist
  have hfilter := hsub.filter (key · = c)
  simp only [List.filter_filter, Bool.and_self] at hfilter
  exact (hfilter.eq_of_length ((List.mergeSort_perm l _).filter _).length_eq.symm).symm

theorem eq_of_map_mergeSort (h : Linear le) (key : α → κ) {f : α → β} {l : List α}
    (hl : ∀ m, l.Perm m → (m.mergeSort fun a b ↦ le (key a) (key b)).map f =
      (l.mergeSort fun a b ↦ le (key a) (key b)).map f)
    {a b : α} (ha : a ∈ l) (hb : b ∈ l) (hab : key a = key b) : f a = f b := by
  classical
  rcases eq_or_ne a b with rfl | hne
  · rfl
  let keyed (a : α) : κ × β := (key a, f a)
  obtain ⟨r, hr⟩ : ∃ r, l.Perm (a :: b :: r) := by
    have hb' : b ∈ l.erase a := (List.mem_erase_of_ne hne.symm).mpr hb
    exact ⟨_, (List.perm_cons_erase ha).trans ((List.perm_cons_erase hb').cons a)⟩
  -- Among the elements of their key the two come out first, in the order in which they stand in
  -- front, whichever that is.
  have hswap : (a :: b :: r).Perm (b :: a :: r) := .swap b a r
  have hvalues := (hl _ hr).trans (hl _ (hr.trans hswap)).symm
  have hkeys := h.map_mergeSort_eq_of_perm key (f := key) hswap fun _ _ _ _ hkey ↦ hkey
  have hkeyed : ((a :: b :: r).mergeSort fun a b ↦ le (key a) (key b)).map keyed =
      ((b :: a :: r).mergeSort fun a b ↦ le (key a) (key b)).map keyed := by
    rw [← List.zip_map', ← List.zip_map', hkeys, hvalues]
  have hfilter := congrArg (List.filter fun p ↦ p.1 = key a) hkeyed
  simp only [List.filter_map, Function.comp_def, keyed, h.filter_mergeSort key (key a)] at hfilter
  have hboth : f a = f b ∧ f b = f a := by simpa [hab] using hfilter
  exact hboth.1

theorem lex [DecidableEq κ] [LT κ] [LE κ] [Std.IsLinearOrder κ] [Std.LawfulOrderLT κ] [DecidableLT κ] :
    Linear fun (a b : List κ) ↦ a ≤ b where
  trans a b c hab hbc := decide_eq_true (List.le_trans (of_decide_eq_true hab) (of_decide_eq_true hbc))
  total a b := by simpa using List.le_total a b
  antisymm a b hab hba := List.le_antisymm (of_decide_eq_true hab) (of_decide_eq_true hba)

theorem lex_lt [DecidableEq κ] [LT κ] [LE κ] [Std.IsLinearOrder κ] [Std.LawfulOrderLT κ]
    [DecidableLT κ] : Linear fun (a b : List κ) ↦ ¬ b < a := lex

end Linear

end TaggedWire
