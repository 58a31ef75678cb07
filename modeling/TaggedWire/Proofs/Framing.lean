import TaggedWire.Proofs.Appending

namespace TaggedWire

/-- The bytes are the payload between its markers, after a length that counts every byte but the
first. -/
def Frame.Holds (payload bytes : List UInt8) : Prop :=
  ∃ header,
    bytes = Tag.object :: header ++ Tag.payloadBegin :: payload ++ [Tag.payloadEnd, Tag.objectEnd] ∧
    header.length = headerSize ∧ readLE header + 1 = bytes.length

theorem Frame.holds_around {payload : List UInt8} (h : size payload < capacity headerSize) :
    Holds payload (around payload) := by
  refine ⟨writeLE headerSize (size payload), rfl, length_writeLE .., ?_⟩
  rw [readLE_writeLE, Nat.mod_eq_of_lt h, length_around]

/-- At `e` the call puts one frame around all that the body writes at `inner`. When the body fails,
or writes more than a frame can hold, the call fails and leaves `e` as it was. -/
inductive Write.Encloses (call body : Write) (inner e : Encoder) : Prop
  | framed {payload frame : List UInt8} (hbody : body inner = .ok () (inner.put payload))
      (hframe : Frame.Holds payload frame) (hcall : call e = .ok () (e.put frame))
  | oversized {payload : List UInt8} (hbody : body inner = .ok () (inner.put payload))
      (hsize : capacity Frame.headerSize ≤ Frame.size payload)
      (hcall : call e = .error (.fault (.codec (.objectSize (Frame.size payload)))) e)
  | failed {f : Failure} {m : Encoder} (hbody : body inner = .error f m)
      (hcall : call e = .error f e)

namespace Write.Encloses

variable {call body : Write} {inner e m : Encoder} {f : Failure}

theorem of_ok {payload : List UInt8} (hbody : body inner = .ok () (inner.put payload))
    (hcall : call e = frame payload e) : call.Encloses body inner e := by
  rw [frame_eq] at hcall
  by_cases hsize : Frame.size payload < capacity Frame.headerSize
  · rw [Piece.object_eq_ok.mpr ⟨hsize, rfl⟩] at hcall
    exact .framed hbody (Frame.holds_around hsize) hcall
  · rw [Piece.object, if_neg hsize] at hcall
    exact .oversized hbody (Nat.not_lt.mp hsize) hcall

theorem object (h : body.Appends) (e : Encoder) : (Write.object body).Encloses body e.enter e := by
  obtain ⟨bs, ⟨⟨⟩, -, hbody⟩ | ⟨f, -, hbody⟩⟩ := h e.enter
  · exact of_ok hbody (object_of_ok hbody)
  · exact .failed hbody (object_of_error hbody)

theorem deeper {hd : e.depth < e.options.maxDepth} (h : call.Encloses body inner (e.deepen hd)) :
    call.deeper.Encloses body inner e := by
  cases h with
  | framed hbody hframe hcall =>
    refine .framed hbody hframe ?_
    simp only [Write.deeper, dif_pos hd, hcall, e.rise_put_deepen]
  | oversized hbody hsize hcall =>
    refine .oversized hbody hsize ?_
    simp only [Write.deeper, dif_pos hd, hcall, e.rise_deepen]
  | failed hbody hcall =>
    refine .failed hbody ?_
    simp only [Write.deeper, dif_pos hd, hcall, e.rise_deepen]

theorem eq_of_error (h : call.Encloses body inner e) (herror : call e = .error f m) : m = e := by
  cases h with
  | framed _ _ hcall =>
    rw [hcall] at herror
    cases herror
  | oversized _ _ hcall | failed _ hcall =>
    rw [hcall] at herror
    cases herror
    rfl

end Write.Encloses

theorem Object.write_encloses (fields : List Value) {e : Encoder}
    (hd : e.depth < e.options.maxDepth) :
    (Object.plain fields).write.Encloses (forM fields Value.write) (e.deepen hd).enter e := by
  rw [Object.write, Object.emit, ← Value.emitAll_eq]
  exact .deeper (.object (Value.emitAll_appends fields) _)

/-- An object is written as one frame around all that its program or its fields write, or not at
all: then, whatever was written before the failure and however many objects were open there, the
encoder is as it was. -/
theorem object_all_or_nothing (e : Encoder) :
    (∀ program, (Step.object program).run.Encloses (Step.runAll program) e.enter e) ∧
    ∀ fields, ∀ call ∈ [Step.value (.object (.plain fields)), Step.record (.plain fields)],
      if hd : e.depth < e.options.maxDepth then
        call.run.Encloses (forM fields Value.write) (e.deepen hd).enter e
      else call.run e = .error (.fault (.depthExceeded e.options.maxDepth)) e := by
  refine ⟨fun program ↦ .object (Step.runAll_appends program) e, fun fields call hcall ↦ ?_⟩
  have hrun : call.run = (Object.plain fields).write := by
    simp only [List.mem_cons, List.not_mem_nil, or_false] at hcall
    rcases hcall with rfl | rfl <;> rfl
  rw [hrun]
  split
  · exact Object.write_encloses fields ‹_›
  · rename_i hd
    exact dif_neg hd

end TaggedWire
