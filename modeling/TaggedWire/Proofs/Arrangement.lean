import TaggedWire.Encoder.Arrange
import TaggedWire.Layout

namespace TaggedWire

variable {m : Type → Type} [Monad m]

theorem mapM_map_result [LawfulMonad m] {α β γ : Type} (f : α → m β) (g : β → γ) (l : List α) :
    l.mapM (fun a ↦ g <$> f a) = List.map g <$> l.mapM f := by
  induction l with
  | nil => simp
  | cons a l ih => simp [ih]

@[simp] theorem ok_bind {ε α β : Type} (a : α) (f : α → Except ε β) : (Except.ok a >>= f) = f a :=
  rfl

@[simp] theorem error_bind {ε α β : Type} (e : ε) (f : α → Except ε β) :
    (Except.error e >>= f) = .error e := rfl

@[simp] theorem ok_map {ε α β : Type} (f : α → β) (a : α) :
    (f <$> Except.ok a : Except ε β) = .ok (f a) := rfl

@[simp] theorem error_map {ε α β : Type} (f : α → β) (e : ε) :
    (f <$> Except.error e : Except ε β) = .error e := rfl

@[simp] theorem bind_eq_ok {ε α β : Type} {x : Except ε α} {f : α → Except ε β} {b : β} :
    (x >>= f) = .ok b ↔ ∃ a, x = .ok a ∧ f a = .ok b := by
  cases x <;> simp [bind, Except.bind]

@[simp] theorem pure_eq_ok {ε α : Type} {a b : α} : (pure a : Except ε α) = .ok b ↔ a = b := by
  simp [pure, Except.pure]

@[simp] theorem mapError_ok {ε ε' α : Type} (f : ε → ε') (a : α) :
    (Except.ok a : Except ε α).mapError f = .ok a := rfl

@[simp] theorem mapError_error {ε ε' α : Type} (f : ε → ε') (e : ε) :
    (Except.error e : Except ε α).mapError f = .error (f e) := rfl

theorem eq_ok_of_toOption {ε α : Type} {x : Except ε α} {a : α} (h : x.toOption = some a) :
    x = .ok a := by
  cases x <;> simp_all [Except.toOption]

theorem exists_error_of_mapM {ε α β : Type} {f : α → Except ε β} {l : List α} {e : ε}
    (h : l.mapM f = .error e) : ∃ a ∈ l, f a = .error e := by
  induction l with
  | nil => cases h
  | cons a l ih =>
    rw [List.mapM_cons] at h
    cases ha : f a with
    | error e' =>
      rw [ha] at h
      cases h
      exact ⟨a, List.mem_cons_self, ha⟩
    | ok b =>
      cases hl : l.mapM f with
      | error e' =>
        rw [ha, hl] at h
        cases h
        obtain ⟨c, hc, hce⟩ := ih hl
        exact ⟨c, List.mem_cons_of_mem a hc, hce⟩
      | ok bs =>
        rw [ha, hl] at h
        cases h

theorem exists_ok_of_mapM {ε α β : Type} {f : α → Except ε β} {l : List α} {bs : List β}
    (h : l.mapM f = .ok bs) : ∀ a ∈ l, ∃ b, f a = .ok b := by
  induction l generalizing bs with
  | nil => exact fun a ha ↦ absurd ha List.not_mem_nil
  | cons a l ih =>
    simp only [List.mapM_cons, bind_eq_ok] at h
    obtain ⟨b, hb, bs, hbs, -⟩ := h
    exact List.forall_mem_cons.mpr ⟨⟨b, hb⟩, ih hbs⟩

theorem mergeSort_congr {α : Type} {l : List α} {le le' : α → α → Bool}
    (h : ∀ a ∈ l, ∀ b ∈ l, le a b = le' a b) : l.mergeSort le = l.mergeSort le' := by
  have hmap := List.map_mergeSort (f := id) h
  simpa using hmap

namespace Entry

variable {α β : Type} {k : Kind} {key : α → Value} {bytes bytes' : α → List UInt8} {es : List α}

theorem sort_perm : (sort k key bytes es).Perm es := by
  unfold sort
  split <;> exact List.mergeSort_perm ..

theorem sort_map (f : β → α) (bs : List β) :
    sort k key bytes (bs.map f) = (sort k (key ∘ f) (bytes ∘ f) bs).map f := by
  unfold sort
  split <;> exact (List.map_mergeSort (by simp)).symm

theorem sort_congr (h : ∀ a ∈ es, bytes a = bytes' a) :
    sort k key bytes es = sort k key bytes' es := by
  unfold sort
  split
  · rfl
  · exact mergeSort_congr fun a ha b hb ↦ by rw [h a ha, h b hb]

end Entry

namespace Layout

variable {α β : Type} {sorted : Bool} {k : Kind} {key : α → Value} {encoding : α → Layout}
  {es arranged : List α}

theorem order_map (f : β → α) (bs : List β) :
    order sorted k key encoding (bs.map f) =
      List.map f <$> order sorted k (key ∘ f) (encoding ∘ f) bs := by
  cases sorted with
  | false => rfl
  | true =>
    by_cases hk : k.hasNaturalOrder
    · simp only [order, hk, ↓reduceIte, Entry.sort_map]
      rfl
    · simp only [order, hk, ↓reduceIte, Bool.false_eq_true, List.mapM_map, Entry.sort_map,
        Functor.map_map]
      rfl

theorem exists_error_of_order {f : Fault} (h : order sorted k key encoding es = .error f) :
    ∃ a ∈ es, encoding a = .error f := by
  unfold order at h
  split at h
  · split at h
    · cases h
    · cases hkeys : es.mapM encoding with
      | ok _ =>
        rw [hkeys] at h
        cases h
      | error g =>
        rw [hkeys] at h
        cases h
        exact exists_error_of_mapM hkeys
  · cases h

theorem order_sorted_eq_ok : order true k key encoding es = .ok arranged ↔
    (¬ k.hasNaturalOrder → ∀ a ∈ es, ∃ x, encoding a = .ok x) ∧
      Entry.sort k key (fun a ↦ (encoding a).getBytes) es = arranged := by
  by_cases hk : k.hasNaturalOrder
  · simp [order, hk]
  · simp only [order, hk, ↓reduceIte, Bool.false_eq_true, not_false_eq_true, forall_const]
    cases hkeys : es.mapM encoding with
    | ok bs =>
      simpa using fun _ ↦ exists_ok_of_mapM hkeys
    | error f =>
      obtain ⟨a, ha, herror⟩ := exists_error_of_mapM hkeys
      have hnot : ¬ ∀ a ∈ es, ∃ x, encoding a = .ok x := fun hok ↦ by simpa [herror] using hok a ha
      simp [hnot]

theorem order_perm (h : order sorted k key encoding es = .ok arranged) : arranged.Perm es := by
  cases sorted with
  | false =>
    cases h
    exact .rfl
  | true =>
    obtain ⟨-, rfl⟩ := order_sorted_eq_ok.mp h
    exact Entry.sort_perm

end Layout

theorem map_lt_map_iff {α β : Type} [LT α] [LT β] {f : α → β} (hf : ∀ a b, f a = f b ↔ a = b)
    (hlt : ∀ a b, f a < f b ↔ a < b) (as bs : List α) : as.map f < bs.map f ↔ as < bs := by
  induction as generalizing bs with
  | nil => cases bs <;> simp
  | cons a as ih =>
    cases bs with
    | nil => simp
    | cons b bs => simp [List.cons_lt_cons_iff, hf, hlt, ih]

namespace Value

theorem rank_text_lt {s t : String} : (text s).rank < (text t).rank ↔ s < t :=
  map_lt_map_iff (f := fun (c : Char) ↦ (c.toNat : Int))
    (fun _ _ ↦ Int.ofNat_inj.trans Char.toNat_inj) (fun _ _ ↦ Int.ofNat_lt) s.toList t.toList

theorem rank_int_lt {m n : Integer} : (int m).rank < (int n).rank ↔ m.val < n.val := by
  simp [rank, List.cons_lt_cons_iff]

theorem rank_bool_lt {b c : Bool} : (bool b).rank < (bool c).rank ↔ b < c := by
  cases b <;> cases c <;> decide

/-- Keys of one kind are compared as what they count as. -/
theorem keyLE_iff {v w : Value} (hk : v.kind = w.kind) (hn : v.kind.hasNaturalOrder) :
    v.keyLE w ↔ ¬ w.rank < v.rank := by
  have hkeyLE : v.keyLE w ↔ v.sortKey.1 < w.sortKey.1 ∨
      v.sortKey.1 = w.sortKey.1 ∧ v.sortKey.2 ≤ w.sortKey.2 := by simp [keyLE]
  rw [hkeyLE]
  cases v with
  | bool b =>
    cases w with
    | bool c => cases b <;> cases c <;> decide
    | _ => cases hk
  | int m =>
    cases w with
    | int n => simp [rank_int_lt, Int.le_iff_lt_or_eq, sortKey]
    | _ => cases hk
  | text s =>
    cases w with
    | text t =>
      rw [rank_text_lt, String.not_lt]
      simp [sortKey]
    | _ => cases hk
  | _ => cases hn

end Value

section Keyed

variable {α : Type} {k : Kind} {key : α → Value} {encoding : α → Layout} {es : List α}

theorem mergeSort_keyLE (hkinds : ∀ a ∈ es, (key a).kind = k) (hk : k.hasNaturalOrder) :
    (es.mergeSort fun a b ↦ (key a).keyLE (key b)) =
      es.mergeSort fun a b ↦ ¬ (key b).rank < (key a).rank := by
  refine mergeSort_congr fun a ha b hb ↦ ?_
  rw [Bool.eq_iff_iff, decide_eq_true_iff]
  exact Value.keyLE_iff ((hkinds a ha).trans (hkinds b hb).symm) (hkinds a ha ▸ hk)

/-- Pairing the elements with their encodings and sorting the pairs is sorting by the encodings. -/
theorem sort_keyed (key : α → Value) (hk : ¬ k.hasNaturalOrder) :
    (do
      let keyed ← es.mapM fun a ↦ do return (← encoding a, a)
      .ok ((keyed.mergeSort fun p q ↦ p.1 ≤ q.1).map (·.2)) : Except Fault (List α)) =
    (fun _ ↦ Entry.sort k key (fun a ↦ (encoding a).getBytes) es) <$> es.mapM encoding := by
  have hkeyed : (es.mapM fun a ↦ do return (← encoding a, a)) =
      (fun _ ↦ es.map fun a ↦ ((encoding a).getBytes, a)) <$> es.mapM encoding := by
    clear hk
    induction es with
    | nil => rfl
    | cons a es ih =>
      rw [List.mapM_cons, List.mapM_cons, ih]
      cases h : encoding a with
      | error f => rfl
      | ok x => cases es.mapM encoding <;> simp [h, Layout.getBytes, Except.toOption]
  have hsort : (es.map fun a ↦ ((encoding a).getBytes, a)).mergeSort (fun p q ↦ p.1 ≤ q.1) =
      (es.mergeSort fun a b ↦ (encoding a).getBytes ≤ (encoding b).getBytes).map
        fun a ↦ ((encoding a).getBytes, a) :=
    (List.map_mergeSort (by simp)).symm
  rw [hkeyed, bind_map_left, hsort, Entry.sort, if_neg hk]
  simp only [List.map_map, Function.comp_def, List.map_id']
  cases es.mapM encoding <;> rfl

end Keyed

theorem Write.arrange_map {α β : Type} {k : Kind} (key : α → Value) (key' : β → Value)
    (encoding : α → Writing (List UInt8)) (f : β → α) (bs : List β)
    (h : ∀ b ∈ bs, (key (f b)).sortKey = (key' b).sortKey) :
    arrange k key encoding (bs.map f) = List.map f <$> arrange k key' (encoding ∘ f) bs := by
  have hsort : (bs.map f).mergeSort (fun a b ↦ (key a).keyLE (key b)) =
      (bs.mergeSort fun a b ↦ (key' a).keyLE (key' b)).map f :=
    (List.map_mergeSort fun a ha b hb ↦ by simp [Value.keyLE, h a ha, h b hb]).symm
  let g (p : List UInt8 × β) := (p.1, f p.2)
  have hkeyed := mapM_map_result (fun b ↦ (·, b) <$> encoding (f b)) g bs
  have hpairs (keyed : List (List UInt8 × β)) :
      (keyed.map g).mergeSort (fun a b ↦ a.1 ≤ b.1) =
        (keyed.mergeSort fun a b ↦ a.1 ≤ b.1).map g :=
    (List.map_mergeSort (by simp [g])).symm
  simp only [← comp_map, g, Function.comp_def] at hkeyed
  unfold arrange
  rw [map_bind]
  congr 1
  funext e
  cases e.options.sortedMaps with
  | false => simp
  | true =>
    by_cases hk : k.hasNaturalOrder
    · simp [hk, hsort]
    · simp [hk, Function.comp_def, hkeyed, hpairs, g]

end TaggedWire
