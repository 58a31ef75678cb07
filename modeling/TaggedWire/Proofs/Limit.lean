import TaggedWire.Proofs.Depth

namespace TaggedWire

open Layout

/-- A result that a higher limit leaves as it is, unless it is the fault of the limit. -/
def Steady {α : Type} (limit : Nat) (x x' : Except Fault α) : Prop :=
  x = .error (.depthExceeded limit) ∨ x' = x

namespace Steady

variable {α β : Type} {limit : Nat} {x x' : Except Fault α}

theorem refl (x : Except Fault α) : Steady limit x x := .inr rfl

theorem bind {f f' : α → Except Fault β} (h : Steady limit x x')
    (hf : ∀ a, x = .ok a → Steady limit (f a) (f' a)) : Steady limit (x >>= f) (x' >>= f') := by
  rcases h with rfl | rfl
  · exact .inl rfl
  · cases x' with
    | error f => exact .inr rfl
    | ok a => exact hf a rfl

theorem concat {f f' : α → Layout} {as : List α} (h : ∀ a ∈ as, Steady limit (f a) (f' a)) :
    Steady limit (concat (as.map f)) (concat (as.map f')) := by
  induction as with
  | nil => exact refl _
  | cons a as ih =>
    have hrest := ih fun b hb ↦ h b (List.mem_cons_of_mem a hb)
    exact (h a List.mem_cons_self).bind fun _ _ ↦ hrest.bind fun _ _ ↦ refl _

theorem mapM {f f' : α → Except Fault β} {as : List α} (h : ∀ a ∈ as, Steady limit (f a) (f' a)) :
    Steady limit (as.mapM f) (as.mapM f') := by
  induction as with
  | nil => exact refl _
  | cons a as ih =>
    have hrest := ih fun b hb ↦ h b (List.mem_cons_of_mem a hb)
    rw [List.mapM_cons, List.mapM_cons]
    exact (h a List.mem_cons_self).bind fun _ _ ↦ hrest.bind fun _ _ ↦ refl _

theorem order {sorted : Bool} {k : Kind} {key : α → Value} {es : List α}
    {encoding encoding' : α → Layout} (h : ∀ a ∈ es, Steady limit (encoding a) (encoding' a)) :
    Steady limit (order sorted k key encoding es) (order sorted k key encoding' es) := by
  unfold Layout.order
  split
  · by_cases hk : k.hasNaturalOrder
    · simp only [hk, ↓reduceIte, Entry.sort]
      exact refl _
    · simp only [hk, Bool.false_eq_true, ↓reduceIte]
      rcases mapM h with hlimit | hsame
      · exact .inl (by rw [hlimit, error_map])
      rw [hsame]
      cases hkeys : es.mapM encoding with
      | error f => exact refl _
      | ok bs =>
        have hbytes (a) (ha : a ∈ es) : (encoding a).getBytes = (encoding' a).getBytes := by
          obtain ⟨x, hx⟩ := exists_ok_of_mapM hkeys a ha
          obtain hlimit | heq := h a ha
          · simp [hx] at hlimit
          · rw [heq]
        rw [Entry.sort_congr hbytes]
        exact refl _
  · exact refl _

variable {o : Options} {n d d' : Nat} {l l' : Layout}

theorem within (hn : o.maxDepth ≤ n) (hd : d' ≤ d) (h : Steady o.maxDepth l l') :
    Steady o.maxDepth (within o d l) (within { o with maxDepth := n } d' l') := by
  by_cases hlt : d < o.maxDepth
  · have hlt' : d' < n := by omega
    simpa only [Layout.within, hlt, hlt', ↓reduceIte] using h
  · exact .inl (by simp only [Layout.within, hlt, ↓reduceIte])

end Steady

namespace Value

variable {o : Options} {n d d' : Nat}

theorem layout_steady_of_le (v : Value) (h : v.CustomFree) (hn : o.maxDepth ≤ n) (hd : d' ≤ d) :
    Steady o.maxDepth (v.layout o d) (v.layout { o with maxDepth := n } d') := by
  induction v, h using CustomFree.induct generalizing d d' with
  | bool | int | float | text | bytes | nil => exact .within hn hd (.refl _)
  | pointer v h ih =>
    have hv := ih h.pointer (Nat.succ_le_succ hd)
    exact .within hn hd (hv.bind fun _ _ ↦ .refl _)
  | object vs h ih =>
    refine .within hn hd ?_
    rw [body_plain, body_plain]
    have hfields := Steady.concat fun v hv ↦ ih v hv (h.plain v hv) (Nat.succ_le_succ hd)
    exact hfields.bind fun _ _ ↦ .refl _
  | array k vs h ih =>
    refine .within hn hd ?_
    cases vs with
    | nil => exact .refl _
    | cons v vs =>
      rw [body_array_cons, body_array_cons, itemBodies_eq, itemBodies_eq]
      have hitems := Steady.concat fun w hw ↦
        (Steady.refl (k.check w.kind)).bind fun _ _ ↦ ih w hw (h.array w hw) (Nat.succ_le_succ hd)
      apply (Steady.refl _).bind
      intro tag _
      apply (Steady.refl _).bind
      intro count _
      exact hitems.bind fun _ _ ↦ .refl _
  | map j k es h ih =>
    refine .within hn hd ?_
    cases es with
    | nil => exact .refl _
    | cons e es =>
      have hd₁ := Nat.succ_le_succ hd
      have hd₂ := Nat.succ_le_succ hd₁
      have hkey (a) (ha : a ∈ e :: es) := (ih a ha).1 (h.map a ha).1 hd₂
      have hvalue (a) (ha : a ∈ e :: es) := (ih a ha).2 (h.map a ha).2 hd₂
      rw [body_map_cons, body_map_cons]
      have hentry (a) (ha : a ∈ e :: es) : Steady o.maxDepth (entryLayout o (d + 1) a)
          (entryLayout { o with maxDepth := n } (d' + 1) a) :=
        .within hn hd₁ ((hkey a ha).bind fun _ _ ↦ (hvalue a ha).bind fun _ _ ↦ .refl _)
      apply (Steady.refl _).bind
      intro _ _
      apply (Steady.order fun a ha ↦ (ih a ha).1 (h.map a ha).1 hd₁).bind
      intro arranged harranged
      have hperm := order_perm harranged
      have hentries := Steady.concat fun a ha ↦ hentry a (hperm.mem_iff.mp ha)
      apply (Steady.refl _).bind
      intro count _
      exact hentries.bind fun _ _ ↦ .refl _

theorem layout_steady (v : Value) (h : v.CustomFree) (hn : o.maxDepth ≤ n) (depth : Nat) :
    Steady o.maxDepth (v.layout o depth) (v.layout { o with maxDepth := n } depth) :=
  layout_steady_of_le v h hn (Nat.le_refl depth)

theorem layout_eq_ok_of_le {v : Value} (h : v.CustomFree) (hd : d' ≤ d) {x : List UInt8}
    (hx : v.layout o d = .ok x) : v.layout o d' = .ok x := by
  rcases layout_steady_of_le v h (Nat.le_refl o.maxDepth) hd with hl | hl
  · rw [hx] at hl
    cases hl
  · exact hl.trans hx

theorem encode_judged {v : Value} (h : v.CustomFree) (o : Options) :
    match v.encode o with
    | .ok _ => (v.needs o 0).Met
    | .error f => ∃ g, f = .fault g ∧ (v.needs o 0).Explains o.maxDepth g := by
  have hjudged := layout_judged v h o 0
  rw [encode_eq h]
  cases hl : v.layout o 0 with
  | ok bs =>
    rw [hl] at hjudged
    exact hjudged.1
  | error f =>
    rw [hl] at hjudged
    exact ⟨f, rfl, hjudged⟩

theorem exists_encode_iff {v : Value} (h : v.CustomFree) (o : Options) :
    (∃ bs, v.encode o = .ok bs) ↔
      v.WellFormed ∧ v.height ≤ o.maxDepth ∧ v.Fits o.integerArrays := by
  have hjudged := encode_judged h o
  have hmet : (v.needs o 0).Met ↔ v.WellFormed ∧ v.height ≤ o.maxDepth ∧ v.Fits o.integerArrays := by
    simp only [Needs.Met, needs, Nat.zero_add]
  rw [← hmet]
  constructor
  · intro hencodes
    obtain ⟨bs, hbs⟩ := hencodes
    rw [hbs] at hjudged
    exact hjudged
  · intro hneeds
    cases hv : v.encode o with
    | ok bs => exact ⟨bs, rfl⟩
    | error f =>
      rw [hv] at hjudged
      obtain ⟨g, -, hg⟩ := hjudged
      exact absurd hneeds hg.not_met

theorem length_encode {v : Value} (h : v.CustomFree) {o : Options} {bs : List UInt8}
    (hbs : v.encode o = .ok bs) : bs.length = v.wireLength o.integerArrays := by
  have hjudged := layout_judged v h o 0
  rw [(encode_eq_ok h).mp hbs] at hjudged
  exact hjudged.2

/-- A value is encoded when it is well formed, no higher than the limit and small enough for its
headers. Of the values whose counts and sizes fit, well-formed ones that are too high fail by the
limit, and ill-formed ones within the limit by their shape. What does not fail by the limit has the
same result under every higher limit. -/
theorem encode_limit (v : Value) (h : v.CustomFree) (o : Options) :
    ((∃ bs, v.encode o = .ok bs) ↔
      v.WellFormed ∧ v.height ≤ o.maxDepth ∧ v.Fits o.integerArrays) ∧
    (v.Fits o.integerArrays → v.WellFormed → o.maxDepth < v.height →
      v.encode o = .error (.fault (.depthExceeded o.maxDepth))) ∧
    (v.Fits o.integerArrays → ¬ v.WellFormed → v.height ≤ o.maxDepth →
      ∃ f, v.encode o = .error (.fault f) ∧ f.IsShape) ∧
    (∀ n, o.maxDepth ≤ n → v.encode o ≠ .error (.fault (.depthExceeded o.maxDepth)) →
      v.encode { o with maxDepth := n } = v.encode o) := by
  have hjudged := encode_judged h o
  refine ⟨exists_encode_iff h o, ?_, ?_, ?_⟩
  · intro hsmall hformed hheight
    cases hv : v.encode o with
    | ok bs => exact absurd ((exists_encode_iff h o).mp ⟨bs, hv⟩).2.1 (Nat.not_le.mpr hheight)
    | error f =>
      rw [hv] at hjudged
      obtain ⟨g, rfl, ⟨rfl, -⟩ | ⟨-, hnot⟩ | ⟨-, hnot⟩⟩ := hjudged
      · rfl
      · exact absurd hformed hnot
      · exact absurd hsmall hnot
  · intro hsmall hformed hheight
    cases hv : v.encode o with
    | ok bs => exact absurd ((exists_encode_iff h o).mp ⟨bs, hv⟩).1 hformed
    | error f =>
      rw [hv] at hjudged
      obtain ⟨g, rfl, ⟨-, hnot⟩ | ⟨hshape, -⟩ | ⟨-, hnot⟩⟩ := hjudged
      · rw [needs, Nat.zero_add] at hnot
        exact absurd hheight hnot
      · exact ⟨g, rfl, hshape⟩
      · exact absurd hsmall hnot
  · intro n hn hne
    rw [encode_eq h] at hne ⊢
    rw [encode_eq h]
    rcases layout_steady v h hn 0 with hl | hl
    · rw [hl] at hne
      exact absurd rfl hne
    · rw [hl]

/-- A map takes a level for itself, one for an entry and one for what the entry holds. -/
theorem map_encode_limit :
    let v := map .bool .array [(bool true, bytes [5])]
    v.CustomFree ∧ (∃ bs, v.encode { maxDepth := 3 } = .ok bs) ∧
      v.encode { maxDepth := 2 } = .error (.fault (.depthExceeded 2)) := by
  intro v
  have hv : v.CustomFree := by decide
  have hformed : v.WellFormed := by
    simp [v, WellFormed, subvalues, inside, insideEntries, WellKinded, kind]
  have hfits : v.Fits .untagged := by decide +kernel
  exact ⟨hv, (encode_limit v hv { maxDepth := 3 }).1.mpr ⟨hformed, by decide, hfits⟩,
    (encode_limit v hv { maxDepth := 2 }).2.1 hfits hformed (by decide)⟩

end Value

end TaggedWire
