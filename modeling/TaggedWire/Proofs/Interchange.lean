import TaggedWire.Proofs.Refinement
import TaggedWire.Value.Rebuild

namespace TaggedWire

theorem forM_congr {m : Type → Type} [Monad m] {α : Type} {f g : α → m Unit} {as : List α}
    (h : ∀ a ∈ as, f a = g a) : forM as f = forM as g := by
  induction as with
  | nil => rfl
  | cons a as ih =>
    rw [List.forM_cons, List.forM_cons, h a List.mem_cons_self,
      ih fun b hb ↦ h b (List.mem_cons_of_mem a hb)]

namespace Value

/-- Neither a check of kinds, a test for zero nor the order of keys tells the two apart, and every
encoder does the same with them. -/
structure Interchangeable (v w : Value) : Prop where
  kind : v.kind = w.kind
  isZero : v.isZero = w.isZero
  sortKey : v.sortKey = w.sortKey
  emit : v.emit = w.emit

namespace Interchangeable

variable {u v w : Value} {vs : List Value} {es : List (Value × Value)} {g : Value → Value}

theorem refl (v : Value) : Interchangeable v v := ⟨rfl, rfl, rfl, rfl⟩

theorem symm (h : Interchangeable v w) : Interchangeable w v :=
  ⟨h.kind.symm, h.isZero.symm, h.sortKey.symm, h.emit.symm⟩

theorem trans (h : Interchangeable u v) (h' : Interchangeable v w) : Interchangeable u w :=
  ⟨h.kind.trans h'.kind, h.isZero.trans h'.isZero, h.sortKey.trans h'.sortKey, h.emit.trans h'.emit⟩

theorem write (h : Interchangeable v w) : v.write = w.write := by
  rw [Value.write, Value.write, h.emit]

theorem pointer (h : Interchangeable v w) : Interchangeable (pointer v) (pointer w) where
  kind := rfl
  isZero := rfl
  sortKey := rfl
  emit := by rw [Value.emit, Value.emit, h.emit]

theorem custom {id : Nat} {program : List Step} :
    Interchangeable (object (.custom id program (vs.map g))) (object (.custom id program vs)) where
  kind := rfl
  isZero := rfl
  sortKey := rfl
  emit := by cases vs <;> rfl

section Parts

variable (h : ∀ v ∈ vs, Interchangeable (g v) v)

include h

theorem plain : Interchangeable (object (.plain (vs.map g))) (object (.plain vs)) where
  kind := rfl
  isZero := rfl
  sortKey := rfl
  emit := by
    rw [Value.emit, Value.emit, Object.emit, Object.emit, emitAll_eq, emitAll_eq, List.forM_map,
      forM_congr fun v hv ↦ (h v hv).write]

theorem array {k : Kind} : Interchangeable (array k (vs.map g)) (array k vs) where
  kind := rfl
  isZero := by simp [Value.isZero]
  sortKey := rfl
  emit := by
    have hitems : emitItems k (vs.map g) = emitItems k vs := by
      rw [emitItems_eq, emitItems_eq, List.forM_map]
      apply forM_congr
      intro v hv
      rw [(h v hv).kind, (h v hv).write]
    simp only [emit_array, hitems, List.isEmpty_map, List.length_map]

end Parts

def replaceEntry (g : Value → Value) (e : Value × Value) : Value × Value := (g e.1, g e.2)

section Entries

variable (h : ∀ e ∈ es, Interchangeable (g e.1) e.1 ∧ Interchangeable (g e.2) e.2)

include h

theorem checkEntries_replace {j k : Kind} :
    j.checkEntries k (es.map (replaceEntry g)) = j.checkEntries k es := by
  induction es with
  | nil => rfl
  | cons e es ih =>
    obtain ⟨hkey, hvalue⟩ := h e List.mem_cons_self
    simp only [List.map_cons, Kind.checkEntries, replaceEntry, hkey.kind, hvalue.kind]
    rw [← ih fun a ha ↦ h a (List.mem_cons_of_mem e ha)]

theorem emitEntries_replace : emitEntries (es.map (replaceEntry g)) =
    es.map fun e ↦ ⟨g e.1, e.1.write.alone, writeEntry e⟩ := by
  rw [emitEntries_eq, List.map_map]
  apply List.map_congr_left
  intro e he
  obtain ⟨hkey, hvalue⟩ := h e he
  simp only [Function.comp_apply, replaceEntry, writeEntry, hkey.write, hvalue.write]

theorem map {j k : Kind} :
    Interchangeable (map j k (es.map (replaceEntry g))) (map j k es) where
  kind := rfl
  isZero := by simp [Value.isZero]
  sortKey := rfl
  emit := by
    cases es with
    | nil => rfl
    | cons a es =>
      have harrange := Write.arrange_map (k := j) Entry.key Prod.fst Entry.encoding
        (fun e ↦ ⟨g e.1, e.1.write.alone, writeEntry e⟩) (a :: es) fun e he ↦ (h e he).1.sortKey
      rw [emit_map_cons, emit_map, checkEntries_replace h, emitEntries_replace h]
      simp only [harrange, List.isEmpty_map, List.isEmpty_cons, Bool.false_eq_true, ↓reduceIte,
        bind_map_left, List.forM_map, List.length_map]
      rfl

end Entries

end Interchangeable

/-- A replacement that may be made anywhere may be made everywhere. -/
theorem rebuild_interchangeable {f : Value → Value} (hf : ∀ v, Interchangeable (f v) v)
    (v : Value) : Interchangeable (v.rebuild f) v := by
  induction v using by_parts with
  | bool | int | float | text | bytes | nil => exact hf _
  | pointer v ih => exact (hf _).trans ih.pointer
  | plain vs ih =>
    rw [rebuild, rebuildAll_eq]
    exact (hf _).trans (.plain ih)
  | custom i p vs ih =>
    rw [rebuild, rebuildAll_eq]
    exact (hf _).trans .custom
  | array k vs ih =>
    rw [rebuild, rebuildAll_eq]
    exact (hf _).trans (.array ih)
  | map j k es ih =>
    rw [rebuild, rebuildEntries_eq]
    exact (hf _).trans (.map ih)

theorem rebuild_eq_self {f : Value → Value} {v : Value} (h : Everywhere (fun w ↦ f w = w) v) :
    v.rebuild f = v := by
  induction v using by_parts with
  | bool | int | float | text | bytes | nil => exact h _ List.mem_cons_self
  | pointer v ih =>
    obtain ⟨hself, hv⟩ := everywhere_pointer.mp h
    rw [rebuild, ih hv, hself]
  | plain vs ih =>
    obtain ⟨hself, hvs⟩ := everywhere_plain.mp h
    rw [rebuild, rebuildAll_eq, map_eq_self fun v hv ↦ ih v hv (hvs v hv), hself]
  | custom i p vs ih =>
    obtain ⟨hself, hvs⟩ := everywhere_custom.mp h
    rw [rebuild, rebuildAll_eq, map_eq_self fun v hv ↦ ih v hv (hvs v hv), hself]
  | array k vs ih =>
    obtain ⟨hself, hvs⟩ := everywhere_array.mp h
    rw [rebuild, rebuildAll_eq, map_eq_self fun v hv ↦ ih v hv (hvs v hv), hself]
  | map j k es ih =>
    obtain ⟨hself, hes⟩ := everywhere_map.mp h
    have hentries : (es.map fun e ↦ (e.1.rebuild f, e.2.rebuild f)) = es := map_eq_self fun e he ↦
      Prod.ext ((ih e he).1 (hes e he).1) ((ih e he).2 (hes e he).2)
    rw [rebuild, rebuildEntries_eq, hentries, hself]

end Value

/-- An object whose program asks for a frame and writes the fields into it. -/
def Object.programmed (id : Nat) (fields : List Value) : Object :=
  .custom id [.object (fields.map .value)] []

theorem Step.runAll_values (vs : List Value) : Step.runAll (vs.map .value) = Value.emitAll vs := by
  induction vs with
  | nil => rfl
  | cons v vs ih =>
    rw [List.map_cons, Step.runAll, Value.emitAll, ih]
    rfl

theorem Step.runAll_singleton (s : Step) : Step.runAll [s] = s.run := bind_pure_unit

theorem Object.emit_programmed (id : Nat) (fields : List Value) :
    (programmed id fields).emit = (plain fields).emit := by
  rw [programmed, emit, emit, Step.runAll_singleton, Step.run, Step.runAll_values]

/-- A program can do what is done for an object without one: at every encoder, whatever the fields
are and wherever they fail, writing the one has the result of writing the other and leaves the
encoder as the other does. -/
theorem Object.programmed_writes (id : Nat) (fields : List Value) (e : Encoder) :
    (Value.object (programmed id fields)).write e = (Value.object (plain fields)).write e ∧
      (programmed id fields).write e = (plain fields).write e := by
  have hemit := emit_programmed id fields
  refine ⟨?_, ?_⟩
  · rw [Value.write, Value.write, Value.emit, Value.emit, hemit]
  · rw [Object.write, Object.write, hemit]

namespace Value

def program (id : Nat) : Value → Value
  | object (.plain fields) => object (.programmed id fields)
  | v => v

theorem program_interchangeable (id : Nat) (v : Value) : Interchangeable (v.program id) v := by
  cases v with
  | object o =>
    cases o with
    | plain fields => exact ⟨rfl, rfl, rfl, Object.emit_programmed id fields⟩
    | custom => exact .refl _
  | _ => exact .refl _

/-- All objects of a value may be given programs, also those inside others. -/
theorem rebuild_program_write (id : Nat) (v : Value) : (v.rebuild (program id)).write = v.write :=
  (rebuild_interchangeable (program_interchangeable id) v).write

end Value

end TaggedWire
