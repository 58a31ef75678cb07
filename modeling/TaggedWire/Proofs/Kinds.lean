import TaggedWire.Proofs.Causes
import TaggedWire.Proofs.Shaped

namespace TaggedWire

/-- An array holds values of the kind it declares, and a map keys and values of its two. -/
def Value.KeepsKinds : Value → Prop
  | array k items => ∀ v ∈ items, v.kind = k
  | map j k entries => ∀ e ∈ entries, e.1.kind = j ∧ e.2.kind = k
  | _ => True

theorem Value.KeepsKinds.not_causes {v : Value} {j k : Kind} (h : v.KeepsKinds) :
    ¬ v.Causes (.kindMismatch j k) := by
  intro hcause
  cases hcause with
  | item hv hk => exact hk (h _ hv)
  | key he hk => exact hk (h _ he).1
  | value he hk => exact hk (h _ he).2

/-- The faults that data of a shape can bring about, beside those of the limit and the codec. -/
inductive Shape.Admits (S : Schema) (t : Shape) : Fault → Prop
  | float {k} : Occurs S (.float k) t → Admits S t (.unsupported (.float k))
  | element {s} : Occurs S (.list s) t → ¬ s.kind.isElement →
      Admits S t (.unsupportedElement s.kind)

theorem Shape.Admits.trans {S : Schema} {s t : Shape} {f : Fault} (h : Admits S s f)
    (hs : Occurs S s t) : Admits S t f := by
  cases h with
  | float h => exact .float (h.trans hs)
  | element h hk => exact .element (h.trans hs) hk

namespace Datum

variable {S : Schema} {s t : Shape} {d x : Datum} {f : Fault}

namespace OfShape

theorem kind (hd : d.OfShape S s) : d.toValue.kind = s.kind := by
  induction hd with
  | boxed _ ih => exact ih
  | _ => rfl

theorem entriesToValue_kinds {k v : Shape} {es : List (Datum × Datum)}
    (hk : ∀ e ∈ es, e.1.OfShape S k) (hv : ∀ e ∈ es, e.2.OfShape S v) :
    ∀ e ∈ entriesToValue es, e.1.kind = k.kind ∧ e.2.kind = v.kind := by
  rw [entriesToValue_eq, List.forall_mem_map]
  exact fun e he ↦ ⟨(hk e he).kind, (hv e he).kind⟩

theorem keepsKinds (hd : d.OfShape S s) : d.toValue.KeepsKinds := by
  induction hd with
  | boxed _ ih => exact ih
  | list hds =>
    rw [toValue, listToValue_eq]
    exact List.forall_mem_map.mpr fun d hd ↦ (hds d hd).kind
  | orderedMap hk hv | hashedMap hk hv => exact entriesToValue_kinds hk hv
  | _ => trivial

theorem admits (hd : d.OfShape S s) (h : d.toValue.Causes f) : s.Admits S f := by
  have hkinds := hd.keepsKinds
  induction hd with
  | float =>
    cases h
    exact .float .here
  | boxed _ ih => exact (ih h hkinds).trans (.boxed .here)
  | list =>
    cases h with
    | element hk => exact .element .here hk
    | item hv hk => exact absurd (.item hv hk) hkinds.not_causes
  | orderedMap | hashedMap =>
    cases h with
    | key he hk => exact absurd (.key he hk) hkinds.not_causes
    | value he hk => exact absurd (.value he hk) hkinds.not_causes
  | _ => cases h

end OfShape

/-- The kind of typed data is that of its type, and every array and every map inside holds what it
declares: so there is never a mismatch of kinds. Without floating-point numbers in the type nothing
is refused but what is too deep or too large and arrays of kinds that have no arrays. -/
theorem toValue_keeps_kinds (ht : ¬ Shape.Occurs S .object t) (hx : x.OfShape S t) :
    x.toValue.kind = t.kind ∧ Value.Everywhere Value.KeepsKinds x.toValue ∧
    ∀ o f, x.toValue.encode o = .error f → ∃ g, f = .fault g ∧ (∀ j k, g ≠ .kindMismatch j k) ∧
      ((∀ k, ¬ Shape.Occurs S (.float k) t) →
        g = .depthExceeded o.maxDepth ∨ (g.IsCodec ∧ ¬ x.toValue.Fits o.integerArrays) ∨
        ∃ s, Shape.Occurs S (.list s) t ∧ ¬ s.kind.isElement ∧ g = .unsupportedElement s.kind) := by
  refine ⟨hx.kind, hx.everywhere .here ht fun _ _ _ he ↦ he.keepsKinds, fun o f hf ↦ ?_⟩
  obtain ⟨g, rfl, hg⟩ := Value.exists_cause_of_encode (hx.customFree ht) hf
  have hadmits : Value.Everywhere (fun w ↦ ∀ f, w.Causes f → t.Admits S f) x.toValue :=
    hx.everywhere .here ht fun _ _ hu he _ hf ↦ (he.admits hf).trans hu
  refine ⟨g, rfl, ?_⟩
  rcases hg with rfl | ⟨hcodec, hsmall⟩ | ⟨w, hw, hcause⟩
  · exact ⟨nofun, fun _ ↦ .inl rfl⟩
  · refine ⟨?_, fun _ ↦ .inr (.inl ⟨hcodec, hsmall⟩)⟩
    rintro j k rfl
    cases hcodec
  · cases hadmits w hw g hcause with
    | float h => exact ⟨nofun, fun hfloat ↦ absurd h (hfloat _)⟩
    | element h hk => exact ⟨nofun, fun _ ↦ .inr (.inr ⟨_, h, hk, rfl⟩)⟩

/-- A record of a list of options, which is refused, and an empty map. -/
theorem list_of_options_refused :
    let S : Schema := fun _ ↦ [.list (.option .bool), .orderedMap (.int .u8) .text]
    let t := Shape.record "pair"
    let x := record "pair" [list (.option .bool) [some (bool true)], orderedMap (.int .u8) .text []]
    ¬ Shape.Occurs S .object t ∧ x.OfShape S t ∧ (∀ k, ¬ Shape.Occurs S (.float k) t) ∧
      x.toValue.encode {} = .error (.fault (.unsupportedElement .pointer)) ∧
      ∃ s, Shape.Occurs S (.list s) t ∧ ¬ s.kind.isElement ∧ s.kind = .pointer := by
  intro S t x
  have hoccurs (s : Shape) (hs : Shape.Occurs S s t) :
      s ∈ [t, .list (.option .bool), .option .bool, .bool, .orderedMap (.int .u8) .text, .int .u8,
        .text] := by
    dsimp only [t] at hs
    cases hs with
    | here => exact List.mem_cons_self
    | field hmem h =>
      rcases List.mem_pair.mp hmem with rfl | rfl
      · cases h with
        | here => simp
        | list h =>
          cases h with
          | here => simp
          | option h =>
            cases h
            simp
      · cases h with
        | here => simp
        | orderedKey h | orderedValue h =>
          cases h
          simp
  have ht : ¬ Shape.Occurs S .object t := fun h ↦ absurd (hoccurs _ h) (by decide)
  have hfloat (k) : ¬ Shape.Occurs S (.float k) t := fun h ↦ absurd (hoccurs _ h) (by simp [t])
  have hx : x.OfShape S t := by
    refine .record rfl fun p hp ↦ ?_
    rcases List.mem_pair.mp hp with rfl | rfl
    · refine .list fun d hd ↦ ?_
      obtain rfl := List.mem_singleton.mp hd
      exact .some .bool
    · exact .orderedMap nofun nofun
  have hrefused : x.toValue.encode {} = .error (.fault (.unsupportedElement .pointer)) := by
    rfl
  obtain ⟨-, -, hencode⟩ := toValue_keeps_kinds ht hx
  obtain ⟨g, hg, -, hcause⟩ := hencode {} _ hrefused
  cases hg
  rcases hcause hfloat with h | ⟨h, -⟩ | ⟨s, hs, hk, h⟩
  · cases h
  · cases h
  · exact ⟨ht, hx, hfloat, hrefused, s, hs, hk, (Fault.unsupportedElement.inj h).symm⟩

end Datum

end TaggedWire
