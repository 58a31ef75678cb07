import TaggedWire.Buffers.Moves
import TaggedWire.Proofs.Arrangement

namespace TaggedWire

namespace Buffers

variable {b c : Buffers} {m : Move} {ms ns before after : List Move}

@[simp] theorem puts_append (ms ns : List Move) : puts (ms ++ ns) = puts ms ++ puts ns :=
  List.flatMap_append

@[simp] theorem puts_nil : puts [] = [] := rfl

@[simp] theorem puts_put (bytes : List UInt8) (ms : List Move) :
    puts (.put bytes :: ms) = bytes ++ puts ms := rfl

@[simp] theorem puts_enter (ms : List Move) : puts (.enter :: ms) = puts ms := rfl

@[simp] theorem puts_merge (ms : List Move) : puts (.merge :: ms) = puts ms := rfl

theorem Balanced.append (h : Balanced ms) (h' : Balanced ns) : Balanced (ms ++ ns) := by
  induction h with
  | nil => exact h'
  | put _ ih => exact .put ih
  | nest hinner _ _ ih =>
    rw [List.append_assoc]
    exact .nest hinner ih

theorem Balanced.count_eq (h : Balanced ms) : ms.count .merge = ms.count .enter := by
  induction h with
  | nil => rfl
  | put _ ih => simpa using ih
  | nest _ _ ihinner ih =>
    simp [ihinner, ih]
    omega

@[simp] theorem nesting_fresh : nesting {} = 0 := rfl

@[simp] theorem contents_fresh : contents {} = [] := rfl

theorem merge_put_enter (b : Buffers) (bytes : List UInt8) :
    (b.enter.put bytes).merge = .ok (bytes, b.put bytes) := by
  rw [merge, leave_put_enter]
  rfl

theorem merge_eq_error (h : b.nesting = 0) : b.merge = .error .unmatchedLeave := by
  rw [merge, leave_eq_error_iff.mpr ⟨h, rfl⟩]
  rfl

theorem finish_eq (b : Buffers) :
    b.finish = if b.nesting = 0 then .ok b.contents else .error .openBuffers := by
  rcases b with ⟨a, _ | ⟨o, w⟩⟩ <;> simp [finish, nesting, contents]

theorem run_cons_eq_ok {taken : List (List UInt8)} :
    b.run (m :: ms) = .ok (taken, c) ↔
      ∃ bytes? rest d, b.move m = .ok (bytes?, d) ∧ d.run ms = .ok (rest, c) ∧
        bytes?.toList ++ rest = taken := by
  rw [run]
  constructor
  · intro h
    obtain ⟨⟨bytes?, d⟩, hmove, htail⟩ := bind_eq_ok.mp h
    obtain ⟨⟨rest, e⟩, hrest, hpure⟩ := bind_eq_ok.mp htail
    obtain ⟨rfl, rfl⟩ := Prod.mk.inj (pure_eq_ok.mp hpure)
    exact ⟨bytes?, rest, d, hmove, hrest, rfl⟩
  · rintro ⟨bytes?, rest, d, hmove, hrest, rfl⟩
    rw [hmove, ok_bind]
    dsimp only
    rw [hrest]
    rfl

theorem exists_of_run_append {taken : List (List UInt8)}
    (h : b.run (ms ++ ns) = .ok (taken, c)) :
    ∃ earlier later d, b.run ms = .ok (earlier, d) ∧ d.run ns = .ok (later, c) ∧
      earlier ++ later = taken := by
  induction ms generalizing b taken with
  | nil => exact ⟨[], taken, b, rfl, h, rfl⟩
  | cons m ms ih =>
    obtain ⟨bytes?, rest, d, hmove, htail, rfl⟩ := run_cons_eq_ok.mp h
    obtain ⟨earlier, later, e, hms, hns, rfl⟩ := ih htail
    have hcons : b.run (m :: ms) = .ok (bytes?.toList ++ earlier, e) :=
      run_cons_eq_ok.mpr ⟨bytes?, earlier, d, hmove, hms, rfl⟩
    exact ⟨_, later, e, hcons, hns, List.append_assoc ..⟩

/-- Where moves lead from fresh buffers: what is put since a buffer was entered is in it, apart from
what is in the buffers still open inside it. -/
inductive Reached : List Move → Buffers → Prop
  | outermost {ms : List Move} (h : Balanced ms) : Reached ms (put {} (puts ms))
  | inside {ms inner : List Move} {b : Buffers} (h : Reached ms b) (hinner : Balanced inner) :
      Reached (ms ++ .enter :: inner) (b.enter.put (puts inner))

/-- What a move takes off after the moves `ms`: a merge takes what was put since the buffer was
entered, which is where the moves up to the merge are balanced. -/
inductive Takes (ms : List Move) : Move → Option (List UInt8) → Prop
  | enter : Takes ms .enter none
  | put (bytes : List UInt8) : Takes ms (.put bytes) none
  | merge {outer inner : List Move} (hms : ms = outer ++ .enter :: inner)
      (hinner : Balanced inner) : Takes ms .merge (some (puts inner))

theorem Takes.length {bytes? : Option (List UInt8)} (h : Takes ms m bytes?) :
    bytes?.toList.length = [m].count .merge := by
  cases h <;> simp

namespace Reached

theorem fresh : Reached [] {} := by
  simpa using outermost .nil

theorem nesting (h : Reached ms b) : b.nesting + ms.count .merge = ms.count .enter := by
  induction h with
  | outermost h => simpa using h.count_eq
  | inside _ hinner ih =>
    simp [hinner.count_eq]
    omega

theorem contents (h : Reached ms b) : b.contents = puts ms := by
  induction h with
  | outermost h => simp
  | inside _ _ ih => simp [ih]

theorem append (h : Reached ms b) (hn : Balanced ns) : Reached (ms ++ ns) (b.put (puts ns)) := by
  cases h with
  | outermost hms =>
    rw [put_put, ← puts_append]
    exact .outermost (hms.append hn)
  | inside hms hinner =>
    rw [put_put, ← puts_append, List.append_assoc]
    exact .inside hms (hinner.append hn)

theorem move (h : Reached ms b) (hm : m ≠ .leave) :
    (b.move m = .error .unmatchedLeave ∧ m = .merge ∧ Balanced ms) ∨
      ∃ bytes? c, b.move m = .ok (bytes?, c) ∧ Takes ms m bytes? ∧ Reached (ms ++ [m]) c := by
  cases m with
  | enter => exact .inr ⟨none, b.enter, rfl, .enter, by simpa using h.inside .nil⟩
  | put bytes =>
    have hone : Balanced [.put bytes] := .put .nil
    have hput := h.append hone
    exact .inr ⟨none, b.put bytes, rfl, .put bytes, by simpa using hput⟩
  | leave => exact absurd rfl hm
  | merge =>
    cases h with
    | outermost h =>
      refine .inl ⟨?_, rfl, h⟩
      rw [Buffers.move, merge_eq_error rfl]
      rfl
    | @inside outer inner b h hinner =>
      have hnest := h.append (.nest hinner .nil)
      have hmove : (b.enter.put (puts inner)).move .merge =
          .ok (some (puts inner), b.put (puts inner)) := by
        rw [Buffers.move, merge_put_enter]
        rfl
      exact .inr ⟨_, _, hmove, .merge rfl hinner, by simpa using hnest⟩

theorem run (h : Reached before b) (hl : .leave ∉ ms) :
    (b.run ms = .error .unmatchedLeave ∧
      ∃ inner after, ms = inner ++ .merge :: after ∧ Balanced (before ++ inner)) ∨
      ∃ taken c, b.run ms = .ok (taken, c) ∧ taken.length = ms.count .merge ∧
        Reached (before ++ ms) c := by
  induction ms generalizing before b with
  | nil => exact .inr ⟨[], b, rfl, rfl, by simpa using h⟩
  | cons m ms ih =>
    rw [List.mem_cons, not_or] at hl
    obtain ⟨herror, rfl, hbalanced⟩ | ⟨bytes?, c, hmove, htakes, hc⟩ := h.move (Ne.symm hl.1)
    · refine .inl ⟨?_, [], ms, rfl, by simpa using hbalanced⟩
      rw [Buffers.run, herror, error_bind]
    obtain ⟨herror, inner, after, rfl, hbalanced⟩ | ⟨taken, d, hrun, hlength, hd⟩ := ih hc hl.2
    · refine .inl ⟨?_, m :: inner, after, rfl, by simpa using hbalanced⟩
      rw [Buffers.run, hmove, ok_bind]
      dsimp only
      rw [herror, error_bind]
    · have hcons : b.run (m :: ms) = .ok (bytes?.toList ++ taken, d) :=
        run_cons_eq_ok.mpr ⟨bytes?, taken, c, hmove, hrun, rfl⟩
      refine .inr ⟨_, d, hcons, ?_, by simpa using hd⟩
      rw [List.length_append, htakes.length, hlength, ← List.count_append]
      rfl

theorem takes {bytes? : Option (List UInt8)} (h : Reached ms b) (hm : m ≠ .leave)
    (hmove : b.move m = .ok (bytes?, c)) : Takes ms m bytes? := by
  obtain ⟨herror, -⟩ | ⟨bytes', d, hmove', htakes, -⟩ := h.move hm
  · rw [herror] at hmove
    cases hmove
  · rw [hmove', Except.ok.injEq, Prod.mk.injEq] at hmove
    exact hmove.1 ▸ htakes

theorem of_run {taken : List (List UInt8)} (h : Reached before b) (hl : .leave ∉ ms)
    (hrun : b.run ms = .ok (taken, c)) :
    taken.length = ms.count .merge ∧ Reached (before ++ ms) c := by
  obtain ⟨herror, -⟩ | ⟨taken', d, hrun', hreached⟩ := h.run hl
  · rw [herror] at hrun
    cases hrun
  · rw [hrun', Except.ok.injEq, Prod.mk.injEq] at hrun
    obtain ⟨rfl, rfl⟩ := hrun
    exact hreached

end Reached

theorem Reached.merge_eq_error (h : Reached before b) (hbalanced : Balanced before) :
    b.merge = .error .unmatchedLeave := by
  have hcount := h.nesting
  rw [hbalanced.count_eq] at hcount
  exact Buffers.merge_eq_error (by omega)

theorem run_merge_after_balanced (h : Balanced before)
    (hl : .leave ∉ before ++ .merge :: after) :
    run {} (before ++ .merge :: after) = .error .unmatchedLeave := by
  obtain ⟨herror, -⟩ | ⟨taken, c, hrun, -⟩ := Reached.fresh.run hl
  · exact herror
  obtain ⟨earlier, later, b, hbefore, hlater, -⟩ := exists_of_run_append hrun
  obtain ⟨bytes?, rest, d, hmove, -⟩ := run_cons_eq_ok.mp hlater
  obtain ⟨-, hb⟩ := Reached.fresh.of_run (fun h ↦ hl (List.mem_append_left _ h)) hbefore
  rw [move, hb.merge_eq_error h] at hmove
  cases hmove

theorem taken_at_merge {taken : List (List UInt8)} (hl : .leave ∉ before)
    (hrun : run {} (before ++ .merge :: after) = .ok (taken, c)) :
    ∃ outer inner, before = outer ++ .enter :: inner ∧ Balanced inner ∧
      taken[before.count .merge]? = some (puts inner) := by
  obtain ⟨earlier, later, b, hbefore, hlater, rfl⟩ := exists_of_run_append hrun
  obtain ⟨bytes?, rest, d, hmove, -, rfl⟩ := run_cons_eq_ok.mp hlater
  obtain ⟨hlength, hb⟩ := Reached.fresh.of_run hl hbefore
  have htakes : Takes before .merge bytes? := hb.takes nofun hmove
  cases htakes with
  | @merge outer inner hms hinner =>
    refine ⟨outer, inner, hms, hinner, ?_⟩
    rw [← hlength]
    simp

/-- Moves fail when they come to a merge before which every buffer that was entered has been merged.
Otherwise as many buffers are open as have been entered but not merged, and together they hold all
that was put, in order. Each merge took what had been put since its buffer was entered, and when no
buffer is open, all that was put can be taken. -/
theorem run_keeps_order (ms : List Move) (hl : .leave ∉ ms) :
    (∀ d, run {} ms = .error d ↔
      d = .unmatchedLeave ∧ ∃ before after, ms = before ++ .merge :: after ∧ Balanced before) ∧
    ∀ taken b, run {} ms = .ok (taken, b) →
      b.nesting + ms.count .merge = ms.count .enter ∧ b.contents = puts ms ∧
      taken.length = ms.count .merge ∧
      (∀ before after, ms = before ++ .merge :: after → ∃ outer inner,
        before = outer ++ .enter :: inner ∧ Balanced inner ∧
          taken[before.count .merge]? = some (puts inner)) ∧
      b.finish = if b.nesting = 0 then .ok (puts ms) else .error .openBuffers := by
  refine ⟨fun d ↦ ⟨fun herror ↦ ?_, ?_⟩, ?_⟩
  · obtain ⟨herror', before, after, hms⟩ | ⟨taken, b, hok, -⟩ := Reached.fresh.run hl
    · rw [herror', Except.error.injEq] at herror
      exact ⟨herror.symm, before, after, hms⟩
    · rw [hok] at herror
      cases herror
  · rintro ⟨rfl, before, after, rfl, hbalanced⟩
    exact run_merge_after_balanced hbalanced hl
  · intro taken b hok
    obtain ⟨hlength, hreached⟩ := Reached.fresh.of_run hl hok
    refine ⟨hreached.nesting, hreached.contents, hlength, ?_, ?_⟩
    · rintro before after rfl
      exact taken_at_merge (fun h ↦ hl (List.mem_append_left _ h)) hok
    · rw [finish_eq, hreached.contents, List.nil_append]

/-- Bytes put before, inside and after a buffer inside a buffer, and a merge too many. -/
theorem merges_keep_order :
    let ms : List Move := [.put [1], .enter, .put [2], .enter, .put [3], .merge, .put [4], .merge]
    .leave ∉ ms ∧ (∃ b, run {} ms = .ok ([[3], [2, 3, 4]], b) ∧ b.finish = .ok [1, 2, 3, 4]) ∧
      run {} (ms ++ [.merge]) = .error .unmatchedLeave := by
  intro ms
  have hl : .leave ∉ ms := by decide
  have hbalanced : Balanced ms := .put (.nest (.put (.nest (.put .nil) (.put .nil))) .nil)
  have hrun : run {} ms = .ok ([[3], [2, 3, 4]], ⟨#[1, 2, 3, 4], []⟩) := rfl
  obtain ⟨-, -, -, -, hfinish⟩ := (run_keeps_order ms hl).2 _ _ hrun
  refine ⟨hl, ⟨_, hrun, hfinish⟩, ?_⟩
  exact ((run_keeps_order (ms ++ [.merge]) (by decide)).1 _).mpr ⟨rfl, ms, [], rfl, hbalanced⟩

end Buffers

end TaggedWire
