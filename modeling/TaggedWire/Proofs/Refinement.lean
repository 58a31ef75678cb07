import TaggedWire.Message
import TaggedWire.Proofs.Inside
import TaggedWire.Proofs.Leaves
import TaggedWire.Proofs.Parts

namespace TaggedWire

open Layout

/-- At `e` the computation appends the bytes of the layout and changes nothing else, or stops with
the fault of the layout, having appended some bytes. -/
def Write.Follows (w : Write) (e : Encoder) : Layout → Prop
  | .ok bs => w e = .ok () (e.put bs)
  | .error f => ∃ bs, w e = .error (.fault f) (e.put bs)

namespace Write.Follows

variable {w w' : Write} {e : Encoder} {l : Layout}

theorem put (bs : List UInt8) (e : Encoder) : Follows (Write.put bs) e (.ok bs) := rfl

theorem throw (f : Fault) (e : Encoder) : Follows (throw (.fault f)) e (.error f) :=
  ⟨[], by rw [Encoder.put_nil]; rfl⟩

theorem of_eq {l' : Layout} (h : Follows w e l) (hl : l = l') : Follows w e l' := hl ▸ h

theorem send (l : Layout) (e : Encoder) : Follows (Write.send l) e l := by
  cases l with
  | ok bs => rfl
  | error f => exact throw f e

theorem seq {l' : Layout} (h : Follows w e l) (h' : ∀ bs, Follows w' (e.put bs) l') :
    Follows (do w; w') e (do return (← l) ++ (← l')) := by
  cases l with
  | error f =>
    obtain ⟨bs, hbs⟩ := h
    exact ⟨bs, by simp [bind, EStateM.bind, hbs]⟩
  | ok bs =>
    have hw : w e = .ok () (e.put bs) := h
    have hw' := h' bs
    cases l' with
    | error f =>
      obtain ⟨cs, hcs⟩ := hw'
      exact ⟨bs ++ cs, by simp [bind, EStateM.bind, hw, hcs]⟩
    | ok cs =>
      have hcs : w' (e.put bs) = .ok () ((e.put bs).put cs) := hw'
      simp [Follows, bind, Except.bind, pure, Except.pure, EStateM.bind, hw, hcs]

theorem get {f : Encoder → Write} (h : Follows (f e) e l) : Follows (get >>= f) e l := h

theorem check {x : Except Fault Unit} (h : x = .ok () → Follows w e l) :
    Follows (do lift x; w) e (do x; l) := by
  cases x with
  | ok => exact h rfl
  | error f => exact throw f e

theorem deeper (h : ∀ hd, Follows w (e.deepen hd) l) :
    Follows (Write.deeper w) e (within e.options e.depth l) := by
  by_cases hd : e.depth < e.options.maxDepth
  · have hw := h hd
    cases l with
    | ok bs =>
      have hbs : w (e.deepen hd) = .ok () ((e.deepen hd).put bs) := hw
      simp [Follows, Write.deeper, within, hd, hbs]
    | error f =>
      obtain ⟨bs, hbs⟩ := hw
      simp only [within, hd, ↓reduceIte]
      exact ⟨bs, by simp [Write.deeper, hd, hbs]⟩
  · simp only [within, hd, ↓reduceIte]
    exact ⟨[], by simp [Write.deeper, hd]⟩

theorem object (h : Follows w e.enter l) :
    Follows (Write.object w) e (do Piece.object (← l)) := by
  cases l with
  | error f =>
    obtain ⟨bs, hbs⟩ := h
    exact ⟨[], by rw [object_of_error hbs, Encoder.put_nil]⟩
  | ok bs =>
    have hsend := send (Piece.object bs) e
    unfold Follows at hsend ⊢
    rw [object_of_ok h, frame_eq]
    exact hsend

theorem forM {α : Type} {f : α → Write} {g : α → Layout} {as : List α}
    (h : ∀ a ∈ as, ∀ bs, Follows (f a) (e.put bs) (g a)) :
    Follows (ForM.forM as f) e (concat (as.map g)) := by
  induction as generalizing e with
  | nil =>
    simp only [Follows, List.map_nil, concat_nil, Encoder.put_nil]
    rfl
  | cons a as ih =>
    have hhead : Follows (f a) e (g a) := by simpa using h a List.mem_cons_self []
    apply hhead.seq
    intro bs
    apply ih
    intro b hb cs
    simpa using h b (List.mem_cons_of_mem a hb) (bs ++ cs)

end Write.Follows

def Writing.Yields {α : Type} (w : Writing α) (e : Encoder) : Except Fault α → Prop
  | .ok a => w e = .ok a e
  | .error f => w e = .error (.fault f) e

namespace Writing.Yields

variable {α β : Type} {w : Writing α} {e : Encoder} {x : Except Fault α}

theorem pure (a : α) (e : Encoder) : Yields (pure a) e (.ok a) := rfl

theorem bind {f : α → Writing β} {g : α → Except Fault β} (h : Yields w e x)
    (h' : ∀ a, Yields (f a) e (g a)) : Yields (w >>= f) e (x >>= g) := by
  cases x with
  | error f =>
    have hw : w e = .error (.fault f) e := h
    simp [Yields, Bind.bind, EStateM.bind, Except.bind, hw]
  | ok a =>
    have hw : w e = .ok a e := h
    have hf := h' a
    simpa [Yields, Bind.bind, EStateM.bind, Except.bind, hw] using hf

theorem mapM {f : α → Writing β} {g : α → Except Fault β} {as : List α}
    (h : ∀ a ∈ as, Yields (f a) e (g a)) : Yields (as.mapM f) e (as.mapM g) := by
  induction as with
  | nil => rfl
  | cons a as ih =>
    rw [List.mapM_cons, List.mapM_cons]
    apply (h a List.mem_cons_self).bind
    intro b
    apply (ih fun c hc ↦ h c (List.mem_cons_of_mem a hc)).bind
    intro bs
    exact pure (b :: bs) e

theorem alone {w : Write} {l : Layout} (h : w.Follows e.scratch l) : Yields w.alone e l := by
  cases l with
  | error f =>
    obtain ⟨bs, hbs⟩ := h
    simp [Yields, Write.alone, hbs]
  | ok bs =>
    have hbs : w e.scratch = .ok () (e.scratch.put bs) := h
    have hfinish : (e.scratch.put bs).finish = .ok bs := by
      simp [Encoder.finish, Buffers.finish, Encoder.scratch, Encoder.put, Buffers.put]
    simp [Yields, Write.alone, hbs, hfinish]

theorem get {f : Encoder → Writing α} (h : Yields (f e) e x) : Yields (get >>= f) e x := h

theorem arrange {f : α → Writing (List UInt8)} {g : α → Layout} {k : Kind} {key : α → Value}
    {es : List α} (hkinds : ∀ a ∈ es, (key a).kind = k) (h : ∀ a ∈ es, Yields (f a) e (g a)) :
    Yields (Write.arrange k key f es) e (Layout.order e.options.sortedMaps k key g es) := by
  apply get
  unfold Layout.order
  split
  · by_cases hk : k.hasNaturalOrder
    · simp only [hk, ↓reduceIte, Entry.sort, mergeSort_keyLE hkinds hk]
      exact pure _ e
    · have hkeyed : Yields (es.mapM fun a ↦ do return (← f a, a)) e
          (es.mapM fun a ↦ do return (← g a, a)) :=
        mapM fun a ha ↦ (h a ha).bind fun bs ↦ pure (bs, a) e
      have hsorted := hkeyed.bind fun keyed ↦
        pure ((keyed.mergeSort fun p q ↦ p.1 ≤ q.1).map (·.2)) e
      rw [sort_keyed key hk] at hsorted
      simpa only [hk, Bool.false_eq_true, ↓reduceIte] using hsorted
  · exact pure _ e

end Writing.Yields

theorem Write.Follows.of_yields {α : Type} {w : Writing α} {e : Encoder} {x : Except Fault α}
    {f : α → Write} {l : α → Layout} (h : w.Yields e x)
    (h' : ∀ a, x = .ok a → (f a).Follows e (l a)) : Follows (w >>= f) e (x >>= l) := by
  cases x with
  | error g =>
    have hw : w e = .error (.fault g) e := h
    exact ⟨[], by simp [bind, EStateM.bind, hw]⟩
  | ok a =>
    have hw : w e = .ok a e := h
    have hf := h' a rfl
    simp only [bind, Except.bind] at hf ⊢
    cases hl : l a <;> simpa [Follows, EStateM.bind, hw, hl] using hf

namespace Write

theorem text_follows (s : String) (e : Encoder) :
    (Value.text s).emit.Follows e (Layout.text s) := by
  rw [Value.emit_text]
  unfold Layout.text
  split
  · exact Follows.put _ e
  · have h := (Follows.put [Tag.text.asArray] e).seq fun _ ↦
      (Follows.send (Piece.count (Utf16.encode s.toList).length) _).seq fun _ ↦
        Follows.put (Utf16.bytes (Utf16.encode s.toList)) _
    refine h.of_eq ?_
    dsimp only
    cases Piece.count (Utf16.encode s.toList).length <;> rfl

theorem bytes_follows (bs : List UInt8) (e : Encoder) :
    (Value.bytes bs).emit.Follows e (Layout.bytes e.options.integerArrays bs) := by
  rw [Value.emit_bytes]
  unfold Layout.bytes
  split
  · exact Follows.put _ e
  · have h := (Follows.put (Piece.integerArrayTag e.options.integerArrays .u8) e).seq fun _ ↦
      (Follows.send (Piece.count bs.length) _).seq fun _ ↦ Follows.put (bs.flatMap Piece.byte) _
    refine .get (h.of_eq ?_)
    cases Piece.count bs.length with
    | error f => rfl
    | ok c => simp [bind, Except.bind, pure, Except.pure]

end Write

namespace Value

theorem emitAll_eq (vs : List Value) : emitAll vs = forM vs write := by
  induction vs with
  | nil => rfl
  | cons v vs ih => rw [emitAll, ih]; rfl

theorem emitItems_eq (k : Kind) (vs : List Value) :
    emitItems k vs = forM vs fun v ↦ (do Write.lift (k.check v.kind); v.write) := by
  induction vs with
  | nil => rfl
  | cons v vs ih =>
    rw [emitItems, ih, Write.check_eq]
    simp [write]

def writeEntry (a : Value × Value) : Write :=
  Write.deeper (Write.object do a.1.write; a.2.write)

theorem emitEntries_eq (es : List (Value × Value)) :
    emitEntries es = es.map fun a ↦ ⟨a.1, a.1.write.alone, writeEntry a⟩ := by
  induction es with
  | nil => rfl
  | cons e es ih => rw [emitEntries, ih]; rfl

theorem emit_map_cons (j k : Kind) (a : Value × Value) (es : List (Value × Value)) :
    (map j k (a :: es)).emit = (do
      Write.lift (j.checkEntries k (a :: es))
      let arranged ← Write.arrange j Prod.fst (fun b ↦ b.1.write.alone) (a :: es)
      Write.put [Tag.object.asArray]
      Write.send (Piece.count (a :: es).length)
      forM arranged writeEntry) := by
  have harrange := Write.arrange_map (k := j) Entry.key Prod.fst Entry.encoding
    (fun b ↦ ⟨b.1, b.1.write.alone, writeEntry b⟩) (a :: es) fun _ _ ↦ rfl
  simp only [emit_map, emitEntries_eq, List.isEmpty_cons, Bool.false_eq_true, ↓reduceIte, harrange,
    bind_map_left, List.forM_map]
  rfl

theorem write_follows {v : Value} (h : ∀ e, v.emit.Follows e (v.body e.options e.depth))
    (e : Encoder) : v.write.Follows e (v.layout e.options e.depth) :=
  .deeper fun hd ↦ h (e.deepen hd)

theorem items_follow {k : Kind} {vs : List Value}
    (h : ∀ v ∈ vs, ∀ e, v.write.Follows e (v.layout e.options e.depth)) (e : Encoder) :
    (emitItems k vs).Follows e (concat (itemBodies e.options e.depth k vs)) := by
  rw [emitItems_eq, itemBodies_eq]
  exact .forM fun v hv bs ↦ .check fun _ ↦ h v hv (e.put bs)

theorem entry_follows {a : Value × Value}
    (hk : ∀ e, a.1.write.Follows e (a.1.layout e.options e.depth))
    (hv : ∀ e, a.2.write.Follows e (a.2.layout e.options e.depth)) (e : Encoder) :
    (writeEntry a).Follows e (entryLayout e.options e.depth a) := by
  apply Write.Follows.deeper
  intro hd
  have hsnd (bs : List UInt8) : a.2.write.Follows ((e.deepen hd).enter.put bs)
      (a.2.layout e.options (e.depth + 1)) := hv _
  have h := Write.Follows.object ((hk (e.deepen hd).enter).seq hsnd)
  exact h.of_eq (by simp [Encoder.enter, Encoder.deepen])

theorem emit_follows (v : Value) (h : v.CustomFree) (e : Encoder) :
    v.emit.Follows e (v.body e.options e.depth) := by
  induction v, h using CustomFree.induct generalizing e with
  | bool b => exact .put _ e
  | int n =>
    rw [emit_int]
    exact .put _ e
  | float x =>
    rw [emit_float]
    exact .throw _ e
  | text s => exact Write.text_follows s e
  | bytes bs => exact Write.bytes_follows bs e
  | nil => exact .put _ e
  | pointer v h ih =>
    have hv (bs : List UInt8) := write_follows (ih h.pointer) (e.put bs)
    rw [emit, body]
    exact (Write.Follows.put [Tag.pointer] e).seq hv
  | object vs h ih =>
    rw [emit, Object.emit, emitAll_eq, body_plain]
    exact .object (.forM fun v hv bs ↦ write_follows (ih v hv (h.plain v hv)) _)
  | array k vs h ih =>
    rw [emit_array]
    cases vs with
    | nil => exact .send _ e
    | cons v vs =>
      have hitems (bs cs : List UInt8) : (emitItems k (v :: vs)).Follows ((e.put bs).put cs)
          (concat (itemBodies e.options e.depth k (v :: vs))) :=
        items_follow (fun w hw ↦ write_follows (ih w hw (h.array w hw))) _
      have hall := (Write.Follows.send (Piece.arrayTag e.options.integerArrays k) e).seq fun bs ↦
        (Write.Follows.send (Piece.count (v :: vs).length) _).seq (hitems bs)
      rw [body_array_cons]
      exact .get (hall.of_eq (by simp))
  | map j k es h ih =>
    cases es with
    | nil => exact .put _ e
    | cons a es =>
      have hkey (b) (hb : b ∈ a :: es) := write_follows ((ih b hb).1 (h.map b hb).1)
      have hvalue (b) (hb : b ∈ a :: es) := write_follows ((ih b hb).2 (h.map b hb).2)
      rw [emit_map_cons, body_map_cons]
      apply Write.Follows.check
      intro hcheck
      have hkinds (b) (hb : b ∈ a :: es) : b.1.kind = j := (checkEntries_eq_ok.mp hcheck b hb).1
      have horder := Writing.Yields.arrange hkinds fun b hb ↦
        Writing.Yields.alone (hkey b hb e.scratch)
      apply Write.Follows.of_yields horder
      intro arranged harranged
      have hperm := order_perm harranged
      have hentries (bs cs : List UInt8) : Write.Follows (forM arranged writeEntry)
          ((e.put bs).put cs) (concat (arranged.map (entryLayout e.options e.depth))) := by
        apply Write.Follows.forM
        intro b hb ds
        have hmem := hperm.mem_iff.mp hb
        exact entry_follows (hkey b hmem) (hvalue b hmem) _
      have hall := (Write.Follows.put [Tag.object.asArray] e).seq fun bs ↦
        (Write.Follows.send (Piece.count (a :: es).length) _).seq (hentries bs)
      exact hall.of_eq (by simp)

theorem encode_eq {v : Value} (h : v.CustomFree) (o : Options) :
    v.encode o = (v.layout o 0).mapError .fault := by
  have hw : v.write.Follows (.fresh o) (v.layout o 0) := write_follows (emit_follows v h) (.fresh o)
  unfold encode Write.toBytes
  cases hl : v.layout o 0 with
  | error f =>
    rw [hl] at hw
    obtain ⟨bs, hbs⟩ := hw
    simp [hbs]
  | ok bs =>
    rw [hl] at hw
    have hbs : v.write (.fresh o) = .ok () ((Encoder.fresh o).put bs) := hw
    have hfinish : ((Encoder.fresh o).put bs).finish = .ok bs := by
      simp [Encoder.finish, Buffers.finish, Encoder.fresh, Encoder.put, Buffers.put]
    simp [hbs, hfinish]

theorem encode_eq_ok {v : Value} (h : v.CustomFree) {o : Options} {bs : List UInt8} :
    v.encode o = .ok bs ↔ v.layout o 0 = .ok bs := by
  rw [encode_eq h]
  cases v.layout o 0 <;> simp

theorem body_of_encode {v : Value} (h : v.CustomFree) {o : Options} {bs : List UInt8}
    (hbs : v.encode o = .ok bs) : v.body o 1 = .ok bs :=
  (layout_eq_ok.mp ((encode_eq_ok h).mp hbs)).2

end Value

end TaggedWire
