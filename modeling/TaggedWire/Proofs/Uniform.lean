import TaggedWire.Proofs.Framing
import TaggedWire.Value.Steps

namespace TaggedWire

/-- The encoder with the buffers `b`, and at their end what its own active buffer holds. -/
def Encoder.above (m : Encoder) (b : Buffers) : Encoder :=
  { m with buffers := b.put m.buffers.active.toList }

namespace Encoder

theorem scratch_above (e : Encoder) : e.scratch.above e.buffers = e := by
  simp [above, scratch]

theorem above_above (m : Encoder) (b c : Buffers) :
    (m.above c).above b = m.above (b.put c.active.toList) := by
  simp [above, Buffers.put, ← Array.toList_inj]

theorem put_above (m : Encoder) (b : Buffers) (bs : List UInt8) :
    (m.put bs).above b = (m.above b).put bs := by
  simp [above, put, Buffers.put, ← Array.toList_inj]

end Encoder

namespace Writing

variable {α β : Type} {w : Writing α} {e m : Encoder}

def graft (b : Buffers) :
    EStateM.Result Failure Encoder α → EStateM.Result Failure Encoder α
  | .ok a m => .ok a (m.above b)
  | .error f m => .error f (m.above b)

theorem graft_graft (b c : Buffers) (r : EStateM.Result Failure Encoder α) :
    graft b (graft c r) = graft (b.put c.active.toList) r := by
  cases r <;> simp only [graft, Encoder.above_above]

/-- What the computation does at an encoder is what it does when nothing has been written, over the
buffers that there are. -/
def Uniform (w : Writing α) : Prop := ∀ e, w e = graft e.buffers (w e.scratch)

namespace Uniform

theorem pure (a : α) : Uniform (pure a) := by
  intro e
  exact congrArg (EStateM.Result.ok a) e.scratch_above.symm

theorem throw (f : Failure) : Uniform (throw f : Writing α) := by
  intro e
  exact congrArg (EStateM.Result.error f) e.scratch_above.symm

theorem bind {f : α → Writing β} (h : w.Uniform)
    (h' : ∀ e a m, w e = .ok a m → (f a).Uniform) : (w >>= f).Uniform := by
  intro e
  have he := h e
  cases hw : w e.scratch with
  | error g m =>
    rw [hw] at he
    rw [bind_of_error he, bind_of_error hw]
    rfl
  | ok a m =>
    rw [hw] at he
    have hf := h' _ _ _ hw
    rw [bind_of_ok he, bind_of_ok hw, hf (m.above e.buffers), hf m, graft_graft]
    rfl

theorem get {f : Encoder → Writing α} (h : ∀ e, (f e).Uniform) (hf : ∀ e, f e = f e.scratch) :
    (get >>= f).Uniform := by
  intro e
  have hrun := h e e
  rw [hf e] at hrun
  exact (congrFun (hf e) e).trans hrun

theorem lift (x : Except Fault α) : Uniform (Write.lift x) := by
  cases x with
  | ok a => exact pure a
  | error f => exact throw _

theorem mapM {f : α → Writing β} {as : List α} (h : ∀ a ∈ as, (f a).Uniform) :
    (as.mapM f).Uniform := by
  induction as with
  | nil => exact pure []
  | cons a as ih =>
    rw [List.mapM_cons]
    have hrest := ih fun b hb ↦ h b (List.mem_cons_of_mem a hb)
    exact (h a List.mem_cons_self).bind fun _ _ _ _ ↦ hrest.bind fun _ _ _ _ ↦ pure _

theorem arrange {k : Kind} {key : β → Value} {encoding : β → Writing (List UInt8)} {entries : List β}
    (h : ∀ a ∈ entries, (encoding a).Uniform) : Uniform (Write.arrange k key encoding entries) := by
  refine get (fun e ↦ ?_) fun _ ↦ rfl
  split
  · split
    · exact pure _
    · have hkeyed : Uniform (entries.mapM fun a ↦ do return (← encoding a, a)) :=
        mapM fun a ha ↦ (h a ha).bind fun _ _ _ _ ↦ pure _
      exact hkeyed.bind fun _ _ _ _ ↦ pure _
  · exact pure _

variable {w w' : Write}

theorem put (bs : List UInt8) : (Write.put bs).Uniform := by
  intro e
  simp only [Write.put, graft, Encoder.put_above, e.scratch_above]

theorem send (x : Except Fault (List UInt8)) : (Write.send x).Uniform :=
  (lift x).bind fun _ _ _ _ ↦ put _

theorem seq (h : w.Uniform) (h' : w'.Uniform) : Uniform (do w; w') := h.bind fun _ _ _ _ ↦ h'

theorem ite {c : Prop} [Decidable c] (h : w.Uniform) (h' : w'.Uniform) :
    Uniform (if c then w else w') := by
  split
  · exact h
  · exact h'

theorem forM {f : α → Write} {as : List α} (h : ∀ a ∈ as, (f a).Uniform) :
    Uniform (ForM.forM as f) := by
  induction as with
  | nil => exact pure _
  | cons a as ih =>
    rw [List.forM_cons]
    exact (h a List.mem_cons_self).seq (ih fun b hb ↦ h b (List.mem_cons_of_mem a hb))

theorem attempt (h : w.Uniform) : w.attempt.Uniform := by
  intro e
  have he := h e
  cases hw : w e.scratch with
  | ok u m =>
    rw [hw] at he
    simp only [Write.attempt, he, hw, graft]
  | error f m =>
    rw [hw] at he
    cases f <;> simp only [Write.attempt, he, hw, graft, Encoder.put_above]

theorem deeper (h : w.Uniform) : w.deeper.Uniform := by
  intro e
  by_cases hd : e.depth < e.options.maxDepth
  · have hd' : e.scratch.depth < e.scratch.options.maxDepth := hd
    have he : w (e.deepen hd) = graft e.buffers (w (e.scratch.deepen hd')) := h (e.deepen hd)
    simp only [Write.deeper, dif_pos hd, dif_pos hd', he]
    cases w (e.scratch.deepen hd') <;> rfl
  · have hd' : ¬ e.scratch.depth < e.scratch.options.maxDepth := hd
    simp only [Write.deeper, dif_neg hd, dif_neg hd', graft, e.scratch_above]
    rfl

theorem exists_put (h : w.Uniform) (hw : w.Appends) (e : Encoder) : ∃ bs,
    (∀ m, m.scratch = e.scratch → w m = .ok () (m.put bs)) ∨
      ∃ f, ∀ m, m.scratch = e.scratch → w m = .error f (m.put bs) := by
  obtain ⟨bs, hrun⟩ := hw e.scratch
  have hput (m : Encoder) (hm : m.scratch = e.scratch) :
      (e.scratch.put bs).above m.buffers = m.put bs := by
    rw [Encoder.put_above, ← hm, m.scratch_above]
  refine ⟨bs, ?_⟩
  obtain ⟨⟨⟩, -, hok⟩ | ⟨f, -, herror⟩ := hrun
  · refine .inl fun m hm ↦ ?_
    rw [h m, hm, hok, graft, hput m hm]
  · refine .inr ⟨f, fun m hm ↦ ?_⟩
    rw [h m, hm, herror, graft, hput m hm]

theorem object (h : w.Uniform) (hw : w.Appends) : w.object.Uniform := by
  intro e
  obtain ⟨bs, hok | ⟨f, herror⟩⟩ := h.exists_put hw e
  · rw [Write.object_of_ok (hok e.enter rfl), Write.object_of_ok (hok e.scratch.enter rfl)]
    rw [Write.frame_eq]
    exact send _ e
  · rw [Write.object_of_error (herror e.enter rfl),
      Write.object_of_error (herror e.scratch.enter rfl)]
    exact throw f e

theorem alone (w : Write) : w.alone.Uniform := by
  intro e
  have hscratch : e.scratch.scratch = e.scratch := rfl
  simp only [Write.alone, hscratch]
  cases w e.scratch with
  | error f m => simp only [graft, e.scratch_above]
  | ok u m => cases hfinish : m.finish <;> simp only [hfinish, graft, e.scratch_above]

end Uniform

end Writing

open Writing.Uniform

mutual

theorem Value.emit_uniform (v : Value) (h : .describe ∉ v.steps) : v.emit.Uniform := by
  cases v with
  | bool | nil => exact put _
  | int n =>
    rw [Value.emit_int]
    exact put _
  | float x =>
    rw [Value.emit_float]
    exact throw _
  | text s =>
    rw [Value.emit_text]
    exact ite (put _) ((put _).seq ((send _).seq (put _)))
  | bytes bs =>
    rw [Value.emit_bytes]
    exact ite (put _) (get (fun _ ↦ (put _).seq ((send _).seq (put _))) fun _ ↦ rfl)
  | pointer v => exact (put _).seq (Value.emit_uniform v h).deeper
  | object o => exact Object.emit_uniform o h
  | array k items =>
    have hitems := Value.emitItems_uniform k items h
    rw [Value.emit_array]
    exact ite (send _) (get (fun _ ↦ (send _).seq ((send _).seq hitems)) fun _ ↦ rfl)
  | map k v entries =>
    have hentries := Value.emitEntries_uniform entries h
    rw [Value.emit_map]
    refine ite (put _) ((lift _).bind fun _ _ _ _ ↦ ?_)
    apply (arrange fun a ha ↦ (hentries a ha).1).bind
    intro m arranged m' hm
    have hkeys (a) (ha : a ∈ Value.emitEntries entries) :=
      (Value.emitEntries_appends entries a ha).1
    obtain ⟨hmem, -⟩ := (Writing.Keeps.arrange hkeys).of_ok hm
    exact (put _).seq ((send _).seq (forM fun a ha ↦ (hentries a (hmem a ha)).2))

theorem Object.emit_uniform (o : Object) (h : .describe ∉ o.steps) : o.emit.Uniform := by
  cases o with
  | plain fields => exact (Value.emitAll_uniform fields h).object (Value.emitAll_appends fields)
  | custom id program fields =>
    rw [Object.steps, List.mem_append, not_or] at h
    cases fields with
    | nil => exact Step.runAll_uniform program h.1
    | cons => exact throw _

theorem Value.emitAll_uniform (vs : List Value) (h : .describe ∉ Value.stepsAll vs) :
    (Value.emitAll vs).Uniform := by
  cases vs with
  | nil => exact pure _
  | cons v vs =>
    rw [Value.stepsAll, List.mem_append, not_or] at h
    exact (Value.emit_uniform v h.1).deeper.seq (Value.emitAll_uniform vs h.2)

theorem Value.emitItems_uniform (k : Kind) (vs : List Value) (h : .describe ∉ Value.stepsAll vs) :
    (Value.emitItems k vs).Uniform := by
  cases vs with
  | nil => exact pure _
  | cons v vs =>
    rw [Value.stepsAll, List.mem_append, not_or] at h
    have hrest := Value.emitItems_uniform k vs h.2
    rw [Value.emitItems, Write.check_eq]
    exact (lift _).bind fun _ _ _ _ ↦ (Value.emit_uniform v h.1).deeper.seq hrest

theorem Value.emitEntries_uniform (es : List (Value × Value))
    (h : .describe ∉ Value.stepsEntries es) :
    ∀ a ∈ Value.emitEntries es, a.encoding.Uniform ∧ a.whole.Uniform := by
  cases es with
  | nil => exact fun _ ha ↦ absurd ha List.not_mem_nil
  | cons e es =>
    obtain ⟨k, v⟩ := e
    rw [Value.stepsEntries, List.mem_append, List.mem_append, not_or, not_or] at h
    obtain ⟨⟨hk, hv⟩, hes⟩ := h
    have hkey := (Value.emit_uniform k hk).deeper
    have hvalue := (Value.emit_uniform v hv).deeper
    have happends := (Value.emit_appends k).deeper.seq (Value.emit_appends v).deeper
    have hwhole := ((hkey.seq hvalue).object happends).deeper
    exact List.forall_mem_cons.mpr ⟨⟨alone _, hwhole⟩, Value.emitEntries_uniform es hes⟩

theorem Step.run_uniform (s : Step) (hs : s ≠ .describe) (h : .describe ∉ s.inner) :
    s.run.Uniform := by
  cases s with
  | tag | raw => exact put _
  | unsigned | signed => exact send _
  | value v => exact (Value.emit_uniform v h).deeper
  | record o => exact (Object.emit_uniform o h).deeper
  | object body => exact (Step.runAll_uniform body h).object (Step.runAll_appends body)
  | describe => exact absurd rfl hs
  | attempt body => exact (Step.runAll_uniform body h).attempt
  | fail f => exact throw _

theorem Step.runAll_uniform (ss : List Step) (h : .describe ∉ Step.substepsAll ss) :
    (Step.runAll ss).Uniform := by
  cases ss with
  | nil => exact pure _
  | cons s ss =>
    rw [Step.substepsAll, List.cons_append, List.mem_cons, List.mem_append, not_or, not_or] at h
    obtain ⟨hs, hinner, hss⟩ := h
    exact (Step.run_uniform s (Ne.symm hs) hinner).seq (Step.runAll_uniform ss hss)

end

def Encoder.Alike (e m : Encoder) : Prop := e.options = m.options ∧ e.depth = m.depth

theorem Encoder.Alike.scratch_eq {e m : Encoder} (h : e.Alike m) : m.scratch = e.scratch := by
  obtain ⟨ho, hd⟩ := h
  cases e
  cases m
  cases ho
  cases hd
  rfl

/-- A program in which nothing looks at the encoder does the same over any buffers: it ends in the
same way and puts the same bytes, and as the program of an object it puts them into the frame. -/
theorem Step.runs_alike (program : List Step) (h : .describe ∉ Step.substepsAll program)
    (e m : Encoder) (hem : e.Alike m) :
    (∃ bs, (Step.runAll program e = .ok () (e.put bs) ∧ Step.runAll program m = .ok () (m.put bs)) ∨
      ∃ f, Step.runAll program e = .error f (e.put bs) ∧
        Step.runAll program m = .error f (m.put bs)) ∧
    (Step.object program).run.Encloses (Step.runAll program) m e := by
  have hm := hem.scratch_eq
  obtain ⟨bs, hok | ⟨f, herror⟩⟩ :=
    (Step.runAll_uniform program h).exists_put (Step.runAll_appends program) e
  · have hobject := Write.object_of_ok (hok e.enter rfl)
    exact ⟨⟨bs, .inl ⟨hok e rfl, hok m hm⟩⟩, .of_ok (hok m hm) hobject⟩
  · have hobject := Write.object_of_error (herror e.enter rfl)
    exact ⟨⟨bs, .inr ⟨f, herror e rfl, herror m hm⟩⟩, .failed (herror m hm) hobject⟩

/-- A program that goes on after a failure, inside two open objects and on a fresh encoder. -/
theorem Step.swallowed_fault_alike :
    let program : List Step := [
      .attempt [.tag 1, .object [.tag 2, .fail (.unsupported .map)]],
      .value (.object (.custom 0 [.object [.tag 3]] []))]
    let e : Encoder := { buffers := ⟨#[0xAA], [#[], #[0xBB]]⟩, depth_le := Nat.zero_le _ }
    .describe ∉ Step.substepsAll program ∧ e.Alike e.scratch ∧
      (∃ bs, Step.runAll program e = .ok () (e.put bs) ∧
        Step.runAll program e.scratch = .ok () (e.scratch.put bs)) ∧
      (Step.object program).run.Encloses (Step.runAll program) e.scratch e := by
  intro program e
  have hquiet : .describe ∉ Step.substepsAll program := by
    simp [program, Step.substepsAll, Step.inner, Value.steps, Object.steps, Value.stepsAll]
  have halike : e.Alike e.scratch := ⟨rfl, rfl⟩
  obtain ⟨⟨bs, hok | ⟨f, herror, -⟩⟩, hobject⟩ := Step.runs_alike program hquiet e e.scratch halike
  · exact ⟨hquiet, halike, ⟨bs, hok⟩, hobject⟩
  · have hok : ∃ m, Step.runAll program e = .ok () m := ⟨_, rfl⟩
    obtain ⟨m, hm⟩ := hok
    rw [hm] at herror
    cases herror

end TaggedWire
