import TaggedWire.Proofs.Limit

namespace TaggedWire

open Layout

/-- What it is about a value, apart from the values inside it, that no encoder takes. -/
inductive Value.Causes : Value → Fault → Prop
  | float {x} : Causes (.float x) (.unsupported (.float x.kind))
  | element {k vs} : ¬ k.isElement → Causes (.array k vs) (.unsupportedElement k)
  | item {k vs v} : v ∈ vs → v.kind ≠ k → Causes (.array k vs) (.kindMismatch k v.kind)
  | key {j k es e} : e ∈ es → e.1.kind ≠ j → Causes (.map j k es) (.kindMismatch j e.1.kind)
  | value {j k es e} : e ∈ es → e.2.kind ≠ k → Causes (.map j k es) (.kindMismatch k e.2.kind)

theorem Fault.IsShape.not_isCodec {f : Fault} (h : f.IsShape) : ¬ f.IsCodec := by
  cases f <;> first | exact not_false | cases h

def FailsOnly {α : Type} (P : Fault → Prop) (x : Except Fault α) : Prop := ∀ f, x = .error f → P f

namespace FailsOnly

variable {α β : Type} {P : Fault → Prop} {x : Except Fault α} {es : List (Value × Value)}
  {j k : Kind}

theorem ok (a : α) : FailsOnly P (.ok a : Except Fault α) := nofun

theorem error {f : Fault} (h : P f) : FailsOnly P (.error f : Except Fault α) := by
  rintro _ ⟨⟩
  exact h

theorem bind {g : α → Except Fault β} (h : FailsOnly P x)
    (h' : ∀ a, x = .ok a → FailsOnly P (g a)) : FailsOnly P (x >>= g) := by
  cases x with
  | error f => exact error (h f rfl)
  | ok a => exact h' a rfl

theorem concat {f : α → Layout} {as : List α} (h : ∀ a ∈ as, FailsOnly P (f a)) :
    FailsOnly P (concat (as.map f)) := by
  induction as with
  | nil => exact ok []
  | cons a as ih =>
    have hrest := ih fun b hb ↦ h b (List.mem_cons_of_mem a hb)
    exact (h a List.mem_cons_self).bind fun _ _ ↦ hrest.bind fun _ _ ↦ ok _

theorem order {sorted : Bool} {key : α → Value} {encoding : α → Layout} {as : List α}
    (h : ∀ e ∈ as, FailsOnly P (encoding e)) :
    FailsOnly P (order sorted k key encoding as) := by
  intro f hf
  obtain ⟨e, he, hef⟩ := exists_error_of_order hf
  exact h e he f hef

theorem within {o : Options} {d : Nat} {l : Layout} (hdepth : P (.depthExceeded o.maxDepth))
    (h : FailsOnly P l) : FailsOnly P (within o d l) := by
  unfold Layout.within
  split
  · exact h
  · exact error hdepth

theorem check (h : k ≠ j → P (.kindMismatch j k)) : FailsOnly P (j.check k) := by
  unfold Kind.check
  split
  · exact ok ()
  · exact error (h ‹_›)

theorem checkEntries (h : ∀ e ∈ es, (e.1.kind ≠ j → P (.kindMismatch j e.1.kind)) ∧
    (e.2.kind ≠ k → P (.kindMismatch k e.2.kind))) : FailsOnly P (j.checkEntries k es) := by
  induction es with
  | nil => exact ok ()
  | cons e es ih =>
    obtain ⟨⟨hkey, hvalue⟩, hes⟩ := List.forall_mem_cons.mp h
    exact (check hkey).bind fun _ _ ↦ (check hvalue).bind fun _ _ ↦ ih hes

theorem emptyArray (h : ¬ k.isElement → P (.unsupportedElement k)) :
    FailsOnly P (Piece.emptyArray k) := by
  cases k <;> first | exact ok _ | exact error (h nofun)

theorem arrayTag {arrays : IntegerArrays} (h : ¬ k.isElement → P (.unsupportedElement k)) :
    FailsOnly P (Piece.arrayTag arrays k) := by
  cases k <;> first | exact ok _ | exact error (h nofun)

section Codec

variable (hcodec : ∀ c, P (.codec c))

include hcodec

theorem count (n : Nat) : FailsOnly P (Piece.count n) := by
  unfold Piece.count
  split
  · exact ok _
  · exact error (hcodec _)

theorem object (payload : List UInt8) : FailsOnly P (Piece.object payload) := by
  unfold Piece.object
  split
  · exact ok _
  · exact error (hcodec _)

theorem text (s : String) : FailsOnly P (text s) := by
  unfold Layout.text
  split
  · exact ok _
  · exact (count hcodec _).bind fun _ _ ↦ ok _

theorem bytes (arrays : IntegerArrays) (bs : List UInt8) : FailsOnly P (bytes arrays bs) := by
  unfold Layout.bytes
  split
  · exact ok _
  · exact (count hcodec _).bind fun _ _ ↦ ok _

end Codec

end FailsOnly

namespace Value

variable {o : Options} {v : Value}

theorem layout_failsOnly {P : Fault → Prop} (hdepth : P (.depthExceeded o.maxDepth))
    (hcodec : ∀ c, P (.codec c)) (h : v.CustomFree)
    (hP : Everywhere (fun w ↦ ∀ f, w.Causes f → P f) v) (d : Nat) :
    FailsOnly P (v.layout o d) := by
  induction v, h using CustomFree.induct generalizing d with
  | bool | int | nil => exact .within hdepth (.ok _)
  | float x => exact .within hdepth (.error ((everywhere_leaf rfl).mp hP _ .float))
  | text s => exact .within hdepth (.text hcodec s)
  | bytes bs => exact .within hdepth (.bytes hcodec _ bs)
  | pointer v h ih =>
    have hv := ih h.pointer hP.pointer (d + 1)
    exact .within hdepth (hv.bind fun _ _ ↦ .ok _)
  | object vs h ih =>
    refine .within hdepth ?_
    rw [body_plain]
    have hfields := FailsOnly.concat fun v hv ↦ ih v hv (h.plain v hv) (hP.plain v hv) (d + 1)
    exact hfields.bind fun _ _ ↦ .object hcodec _
  | array k vs h ih =>
    obtain ⟨hself, hitems⟩ := everywhere_array.mp hP
    refine .within hdepth ?_
    cases vs with
    | nil => exact .emptyArray fun hk ↦ hself _ (.element hk)
    | cons v vs =>
      rw [body_array_cons, itemBodies_eq]
      have hrow := FailsOnly.concat fun w hw ↦
        (FailsOnly.check fun hk ↦ hself _ (.item hw hk)).bind fun _ _ ↦
          ih w hw (h.array w hw) (hitems w hw) (d + 1)
      apply (FailsOnly.arrayTag fun hk ↦ hself _ (.element hk)).bind
      intro tag _
      apply (FailsOnly.count hcodec _).bind
      intro count _
      exact hrow.bind fun _ _ ↦ .ok _
  | map j k es h ih =>
    obtain ⟨hself, hentries⟩ := everywhere_map.mp hP
    refine .within hdepth ?_
    cases es with
    | nil => exact .ok _
    | cons e es =>
      have hkey (a) (ha : a ∈ e :: es) := (ih a ha).1 (h.map a ha).1 (hentries a ha).1
      have hvalue (a) (ha : a ∈ e :: es) := (ih a ha).2 (h.map a ha).2 (hentries a ha).2
      have hentry (a) (ha : a ∈ e :: es) : FailsOnly P (entryLayout o (d + 1) a) :=
        .within hdepth ((hkey a ha _).bind fun _ _ ↦
          (hvalue a ha _).bind fun _ _ ↦ .object hcodec _)
      rw [body_map_cons]
      apply (FailsOnly.checkEntries fun a ha ↦
        ⟨fun hk ↦ hself _ (.key ha hk), fun hk ↦ hself _ (.value ha hk)⟩).bind
      intro _ _
      apply (FailsOnly.order fun a ha ↦ hkey a ha (d + 1)).bind
      intro arranged harranged
      have hperm := order_perm harranged
      apply (FailsOnly.count hcodec _).bind
      intro count _
      exact (FailsOnly.concat fun a ha ↦ hentry a (hperm.mem_iff.mp ha)).bind fun _ _ ↦ .ok _

theorem exists_cause_of_encode (h : v.CustomFree) {f : Failure} (hf : v.encode o = .error f) :
    ∃ g, f = .fault g ∧ (g = .depthExceeded o.maxDepth ∨
      (g.IsCodec ∧ ¬ v.Fits o.integerArrays) ∨ ∃ w ∈ v.subvalues, w.Causes g) := by
  have hjudged := encode_judged h o
  rw [hf] at hjudged
  obtain ⟨g, rfl, hg⟩ := hjudged
  have hlayout : v.layout o 0 = .error g := by
    rw [encode_eq h] at hf
    cases hl : v.layout o 0 <;> simp_all
  have hcause := layout_failsOnly (P := fun g ↦ g = .depthExceeded o.maxDepth ∨ g.IsCodec ∨
    ∃ w ∈ v.subvalues, w.Causes g) (.inl rfl) (fun _ ↦ .inr (.inl trivial)) h
    (fun w hw _ hwg ↦ .inr (.inr ⟨w, hw, hwg⟩)) 0 g hlayout
  refine ⟨g, rfl, hcause.imp_right (Or.imp_left fun hcodec ↦ ⟨hcodec, ?_⟩)⟩
  obtain ⟨rfl, -⟩ | ⟨hshape, -⟩ | ⟨-, hsmall⟩ := hg
  · cases hcodec
  · exact absurd hcodec hshape.not_isCodec
  · exact hsmall

end Value

end TaggedWire
