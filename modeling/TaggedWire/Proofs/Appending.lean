import TaggedWire.Proofs.Refinement

namespace TaggedWire

/-- A fault, or the one defect that a value can bring about: an object with fields beside its
program. -/
def Failure.Tame : Failure → Prop
  | .fault _ => True
  | .defect d => d = .customFields

/-- At every encoder the computation puts some bytes and changes nothing else, whether it gives a
result, of which `P` holds, or fails. -/
def Writing.Keeps {α : Type} (w : Writing α) (P : α → Prop) : Prop :=
  ∀ e, ∃ bs, (∃ a, P a ∧ w e = .ok a (e.put bs)) ∨ (∃ f, f.Tame ∧ w e = .error f (e.put bs))

namespace Writing.Keeps

variable {α β : Type} {w : Writing α} {P : α → Prop} {Q : β → Prop} {e e' : Encoder}

theorem of_ok {a : α} (h : w.Keeps P) (hw : w e = .ok a e') : P a ∧ ∃ bs, e' = e.put bs := by
  obtain ⟨bs, ⟨b, hb, hwb⟩ | ⟨f, -, hwf⟩⟩ := h e
  · rw [hw] at hwb
    cases hwb
    exact ⟨hb, bs, rfl⟩
  · rw [hw] at hwf
    cases hwf

theorem of_error {f : Failure} (h : w.Keeps P) (hw : w e = .error f e') :
    f.Tame ∧ ∃ bs, e' = e.put bs := by
  obtain ⟨bs, ⟨b, -, hwb⟩ | ⟨g, hg, hwg⟩⟩ := h e
  · rw [hw] at hwb
    cases hwb
  · rw [hw] at hwg
    cases hwg
    exact ⟨hg, bs, rfl⟩

theorem pure {a : α} (h : P a) : Keeps (pure a) P :=
  fun e ↦ ⟨[], .inl ⟨a, h, by rw [e.put_nil]; rfl⟩⟩

theorem throw {f : Failure} (h : f.Tame) : Keeps (throw f) P :=
  fun e ↦ ⟨[], .inr ⟨f, h, by rw [e.put_nil]; rfl⟩⟩

theorem bind {f : α → Writing β} (h : w.Keeps P) (h' : ∀ a, P a → (f a).Keeps Q) :
    (w >>= f).Keeps Q := by
  intro e
  obtain ⟨bs, ⟨a, ha, hw⟩ | ⟨g, hg, hw⟩⟩ := h e
  · obtain ⟨cs, hf⟩ := h' a ha (e.put bs)
    refine ⟨bs ++ cs, ?_⟩
    rw [e.put_put] at hf
    simpa only [Bind.bind, EStateM.bind, hw] using hf
  · exact ⟨bs, .inr ⟨g, hg, by simp only [Bind.bind, EStateM.bind, hw]⟩⟩

theorem get : Keeps get fun _ ↦ True :=
  fun e ↦ ⟨[], .inl ⟨e, trivial, by rw [e.put_nil]; rfl⟩⟩

theorem lift {x : Except Fault α} (h : ∀ a, x = .ok a → P a) : Keeps (Write.lift x) P := by
  cases x with
  | error f => exact throw trivial
  | ok a => exact pure (h a rfl)

theorem mapM {f : α → Writing β} {as : List α} (h : ∀ a ∈ as, (f a).Keeps Q) :
    (as.mapM f).Keeps fun bs ↦ ∀ b ∈ bs, Q b := by
  induction as with
  | nil => exact pure fun _ hb ↦ absurd hb List.not_mem_nil
  | cons a as ih =>
    rw [List.mapM_cons]
    apply (h a List.mem_cons_self).bind
    intro b hb
    apply (ih fun c hc ↦ h c (List.mem_cons_of_mem a hc)).bind
    intro bs hbs
    exact pure (List.forall_mem_cons.mpr ⟨hb, hbs⟩)

theorem arrange {k : Kind} {key : β → Value} {encoding : β → Writing (List UInt8)} {entries : List β}
    (h : ∀ a ∈ entries, (encoding a).Keeps fun _ ↦ True) :
    (Write.arrange k key encoding entries).Keeps fun arranged ↦ ∀ a ∈ arranged, a ∈ entries := by
  refine get.bind fun e _ ↦ ?_
  split
  · split
    · exact pure fun a ha ↦ List.mem_mergeSort.mp ha
    · have hkeyed : Keeps (entries.mapM fun a ↦ do return (← encoding a, a))
          fun keyed ↦ ∀ p ∈ keyed, p.2 ∈ entries :=
        mapM fun a ha ↦ (h a ha).bind fun _ _ ↦ pure ha
      apply hkeyed.bind
      intro keyed hkeyed
      refine pure fun a ha ↦ ?_
      obtain ⟨p, hp, rfl⟩ := List.mem_map.mp ha
      exact hkeyed p (List.mem_mergeSort.mp hp)
  · exact pure fun _ ha ↦ ha

end Writing.Keeps

abbrev Write.Appends (w : Write) : Prop := w.Keeps fun _ ↦ True

namespace Write.Appends

variable {w w' : Write}

theorem put (bs : List UInt8) : Appends (put bs) := fun _ ↦ ⟨bs, .inl ⟨(), trivial, rfl⟩⟩

theorem describe : Appends describe := fun _ ↦ ⟨_, .inl ⟨(), trivial, rfl⟩⟩

theorem send (x : Except Fault (List UInt8)) : Appends (send x) :=
  (Writing.Keeps.lift fun _ _ ↦ trivial).bind fun bs _ ↦ put bs

theorem count (n : Nat) : Appends (count n) := by
  rw [count_eq]
  exact send _

theorem arrayTag (k : Kind) : Appends (arrayTag k) := by
  rw [arrayTag_eq]
  exact Writing.Keeps.get.bind fun _ _ ↦ send _

theorem put_of_ends (hw : w.Appends) {e m : Encoder}
    (h : w e = .ok () m ∨ ∃ f, w e = .error f m) : ∃ bs, m = e.put bs := by
  rcases h with hok | ⟨f, herror⟩
  · exact (hw.of_ok hok).2
  · exact (hw.of_error herror).2

theorem seq (h : w.Appends) (h₂ : w'.Appends) : Appends (do w; w') := h.bind fun _ _ ↦ h₂

theorem ite {c : Prop} [Decidable c] (h : w.Appends) (h' : w'.Appends) :
    Appends (if c then w else w') := by
  split
  · exact h
  · exact h'

theorem forM {α : Type} {f : α → Write} {as : List α} (h : ∀ a ∈ as, (f a).Appends) :
    Appends (ForM.forM as f) := by
  induction as with
  | nil => exact .pure trivial
  | cons a as ih =>
    rw [List.forM_cons]
    exact (h a List.mem_cons_self).seq (ih fun b hb ↦ h b (List.mem_cons_of_mem a hb))

theorem attempt (h : w.Appends) : w.attempt.Appends := by
  intro e
  obtain ⟨bs, ⟨u, -, hw⟩ | ⟨f, hf, hw⟩⟩ := h e
  · exact ⟨bs, .inl ⟨u, trivial, by simp only [Write.attempt, hw]⟩⟩
  · cases f with
    | fault f =>
      refine ⟨bs ++ f.message.toUTF8.toList, .inl ⟨(), trivial, ?_⟩⟩
      simp only [Write.attempt, hw, e.put_put]
    | defect d => exact ⟨bs, .inr ⟨.defect d, hf, by simp only [Write.attempt, hw]⟩⟩

theorem deeper (h : w.Appends) : w.deeper.Appends := by
  intro e
  by_cases hd : e.depth < e.options.maxDepth
  · obtain ⟨bs, ⟨u, -, hw⟩ | ⟨f, hf, hw⟩⟩ := h (e.deepen hd)
    · refine ⟨bs, .inl ⟨u, trivial, ?_⟩⟩
      simp only [Write.deeper, dif_pos hd, hw, e.rise_put_deepen]
    · refine ⟨bs, .inr ⟨f, hf, ?_⟩⟩
      simp only [Write.deeper, dif_pos hd, hw, e.rise_put_deepen]
  · refine ⟨[], .inr ⟨.fault (.depthExceeded e.options.maxDepth), trivial, ?_⟩⟩
    rw [Write.deeper, dif_neg hd, e.put_nil]

theorem object (h : w.Appends) : w.object.Appends := by
  intro e
  obtain ⟨bs, ⟨u, -, hw⟩ | ⟨f, hf, hw⟩⟩ := h e.enter
  · have hsend := send (Piece.object bs) e
    rwa [← frame_eq, ← object_of_ok hw] at hsend
  · exact ⟨[], .inr ⟨f, hf, by rw [object_of_error hw, e.put_nil]⟩⟩

theorem alone (h : w.Appends) : w.alone.Keeps fun _ ↦ True := by
  intro e
  refine ⟨[], ?_⟩
  obtain ⟨bs, ⟨u, -, hw⟩ | ⟨f, hf, hw⟩⟩ := h e.scratch
  · have hfinish : (e.scratch.put bs).finish = .ok bs := by
      simp [Encoder.finish, Buffers.finish, Encoder.scratch, Encoder.put, Buffers.put]
    exact .inl ⟨bs, trivial, by simp only [Write.alone, hw, hfinish, e.put_nil]⟩
  · exact .inr ⟨f, hf, by simp only [Write.alone, hw, e.put_nil]⟩

end Write.Appends

mutual

theorem Value.emit_appends (v : Value) : v.emit.Appends := by
  cases v with
  | bool | nil => exact .put _
  | int n =>
    rw [Value.emit_int]
    exact .put _
  | float x =>
    rw [Value.emit_float]
    exact .throw trivial
  | text s =>
    rw [Value.emit_text]
    exact .ite (.put _) ((Write.Appends.put _).seq ((Write.Appends.send _).seq (.put _)))
  | bytes bs =>
    rw [Value.emit_bytes]
    refine .ite (.put _) (Writing.Keeps.get.bind fun _ _ ↦ ?_)
    exact (Write.Appends.put _).seq ((Write.Appends.send _).seq (.put _))
  | pointer v => exact (Write.Appends.put _).seq (Value.emit_appends v).deeper
  | object o => exact Object.emit_appends o
  | array k items =>
    rw [Value.emit_array]
    refine .ite (.send _) (Writing.Keeps.get.bind fun _ _ ↦ ?_)
    exact (Write.Appends.send _).seq ((Write.Appends.send _).seq (Value.emitItems_appends k items))
  | map k v entries =>
    have hentries := Value.emitEntries_appends entries
    rw [Value.emit_map]
    refine .ite (.put _) ((Writing.Keeps.lift fun _ _ ↦ trivial).bind fun _ _ ↦ ?_)
    apply (Writing.Keeps.arrange fun a ha ↦ (hentries a ha).1).bind
    intro arranged harranged
    have hwhole := Write.Appends.forM fun a ha ↦ (hentries a (harranged a ha)).2
    exact (Write.Appends.put _).seq ((Write.Appends.send _).seq hwhole)

theorem Object.emit_appends (o : Object) : o.emit.Appends := by
  cases o with
  | plain fields => exact (Value.emitAll_appends fields).object
  | custom id program fields =>
    cases fields with
    | nil => exact Step.runAll_appends program
    | cons => exact .throw rfl

theorem Value.emitAll_appends (vs : List Value) : (Value.emitAll vs).Appends := by
  cases vs with
  | nil => exact .pure trivial
  | cons v vs => exact (Value.emit_appends v).deeper.seq (Value.emitAll_appends vs)

theorem Value.emitItems_appends (k : Kind) (vs : List Value) : (Value.emitItems k vs).Appends := by
  cases vs with
  | nil => exact .pure trivial
  | cons v vs =>
    rw [Value.emitItems, Write.check_eq]
    refine (Writing.Keeps.lift fun _ _ ↦ trivial).bind fun _ _ ↦ ?_
    exact (Value.emit_appends v).deeper.seq (Value.emitItems_appends k vs)

theorem Value.emitEntries_appends (es : List (Value × Value)) : ∀ a ∈ Value.emitEntries es,
    (a.encoding.Keeps fun _ ↦ True) ∧ a.whole.Appends := by
  cases es with
  | nil => exact fun _ ha ↦ absurd ha List.not_mem_nil
  | cons e es =>
    obtain ⟨k, v⟩ := e
    have hkey := (Value.emit_appends k).deeper
    have hvalue := (Value.emit_appends v).deeper
    have hrest := Value.emitEntries_appends es
    exact List.forall_mem_cons.mpr ⟨⟨hkey.alone, (hkey.seq hvalue).object.deeper⟩, hrest⟩

theorem Step.run_appends (s : Step) : s.run.Appends := by
  cases s with
  | tag | raw => exact .put _
  | unsigned | signed => exact .send _
  | value v => exact (Value.emit_appends v).deeper
  | record o => exact (Object.emit_appends o).deeper
  | object body => exact (Step.runAll_appends body).object
  | describe => exact .describe
  | attempt body => exact (Step.runAll_appends body).attempt
  | fail f => exact .throw trivial

theorem Step.runAll_appends (ss : List Step) : (Step.runAll ss).Appends := by
  cases ss with
  | nil => exact .pure trivial
  | cons s ss => exact (Step.run_appends s).seq (Step.runAll_appends ss)

end

theorem Value.writeEntry_appends (a : Value × Value) : (Value.writeEntry a).Appends :=
  ((Value.emit_appends a.1).deeper.seq (Value.emit_appends a.2).deeper).object.deeper

end TaggedWire
