import TaggedWire.Proofs.Insertion

namespace TaggedWire

namespace Table

variable {j k : Kind} {l es : List (Value × Value)} {p q : Value × Value} {key value : Value}

section Firsts

theorem mem_of_mem_firsts (h : p ∈ firsts l) : p ∈ l := by
  induction l with
  | nil => exact h
  | cons q l ih =>
    rw [firsts, List.mem_cons, List.mem_filter] at h
    exact List.mem_cons.mpr (h.imp_right fun hp ↦ ih hp.1)

theorem apart_firsts (l : List (Value × Value)) : Apart (firsts l) := by
  induction l with
  | nil => exact .nil
  | cons p l ih =>
    refine .cons (fun q hq ↦ ?_) (ih.filter _)
    have hpq : p.1.same q.1 = false := by simpa using (List.mem_filter.mp hq).2
    exact hpq

theorem exists_first (hp : p ∈ l) (h : p.1.same key) : ∃ q ∈ firsts l, q.1.same key := by
  induction l with
  | nil => cases hp
  | cons a l ih =>
    by_cases ha : a.1.same key
    · exact ⟨a, List.mem_cons_self, ha⟩
    · obtain rfl | hp := List.mem_cons.mp hp
      · exact absurd h ha
      obtain ⟨q, hq, hqk⟩ := ih hp
      refine ⟨q, List.mem_cons_of_mem a (List.mem_filter.mpr ⟨hq, ?_⟩), hqk⟩
      simpa using fun haq ↦ ha (Value.same_trans haq hqk)

theorem firsts_concat (l : List (Value × Value)) (p : Value × Value) :
    firsts (l ++ [p]) = firsts l ++ if l.any (·.1.same p.1) then [] else [p] := by
  induction l with
  | nil => rfl
  | cons a l ih =>
    rw [List.cons_append, firsts, firsts, ih, List.filter_append, List.any_cons, List.cons_append]
    by_cases ha : a.1.same p.1 <;> by_cases hl : l.any (·.1.same p.1) <;> simp [ha, hl]

end Firsts

/-- The value of the last pair whose key equals that of `p`, or else that of `p`. -/
def latest (l : List (Value × Value)) (p : Value × Value) : Value :=
  ((l.reverse.find? fun q ↦ q.1.same p.1).getD p).2

theorem latest_concat (l : List (Value × Value)) (q p : Value × Value) :
    latest (l ++ [q]) p = if q.1.same p.1 then q.2 else latest l p := by
  unfold latest
  rw [List.reverse_concat, List.find?_cons]
  split <;> simp [*]

theorem latest_eq_self (h : ∀ q ∈ l, q.1.same p.1 = false) : latest l p = p.2 := by
  have hnone : (l.reverse.find? fun q ↦ q.1.same p.1) = none :=
    List.find?_eq_none.mpr fun q hq ↦ by simp [h q (List.mem_reverse.mp hq)]
  rw [latest, hnone, Option.getD_none]

theorem put_eq_map (h : Apart es) (hkey : ∃ e ∈ es, e.1.same key) :
    put key value es = es.map fun e ↦ (e.1, if e.1.same key then value else e.2) := by
  induction es with
  | nil =>
    obtain ⟨e, he, -⟩ := hkey
    cases he
  | cons e es ih =>
    obtain ⟨hne, hes⟩ := List.pairwise_cons.mp h
    by_cases he : e.1.same key
    · have hrest : (es.map fun a ↦ (a.1, if a.1.same key then value else a.2)) = es := by
        refine map_eq_self fun a ha ↦ ?_
        have hae : e.1.same a.1 = false := hne a ha
        have hak : ¬ a.1.same key := by
          intro hak
          rw [Value.same_comm a.1 key] at hak
          rw [Value.same_trans he hak] at hae
          cases hae
        rw [if_neg hak]
      rw [List.map_cons, hrest, if_pos he, put, if_pos he]
    · obtain ⟨a, ha, hak⟩ := hkey
      have hmem : a ∈ es := by
        obtain rfl | hmem := List.mem_cons.mp ha
        · exact absurd hak he
        · exact hmem
      rw [List.map_cons, if_neg he, put, if_neg he, ih hes ⟨a, hmem, hak⟩]

/-- For each pair whose key equals none before it, its key and the value that came last with it. -/
def records (l : List (Value × Value)) : List (Value × Value) :=
  (firsts l).map fun p ↦ (p.1, latest l p)

theorem apart_records (l : List (Value × Value)) : Apart (records l) := by
  rw [records, Apart, List.pairwise_map]
  exact apart_firsts l

theorem put_records (l : List (Value × Value)) (q : Value × Value) :
    put q.1 q.2 (records l) = records (l ++ [q]) := by
  by_cases hq : ∃ p ∈ l, p.1.same q.1
  · have hfirsts : firsts (l ++ [q]) = firsts l := by
      rw [firsts_concat, if_pos (by simpa using hq), List.append_nil]
    have hkey : ∃ e ∈ records l, e.1.same q.1 := by
      obtain ⟨p, hp, hpq⟩ := hq
      obtain ⟨a, ha, haq⟩ := exists_first hp hpq
      exact ⟨_, List.mem_map_of_mem ha, haq⟩
    rw [put_eq_map (apart_records l) hkey, records, records, hfirsts, List.map_map]
    refine List.map_congr_left fun p _ ↦ ?_
    simp only [Function.comp_apply, latest_concat, Value.same_comm q.1 p.1]
  · have hne (p) (hp : p ∈ l) : p.1.same q.1 = false :=
      Bool.eq_false_iff.mpr fun hpq ↦ hq ⟨p, hp, hpq⟩
    have hfirsts : firsts (l ++ [q]) = firsts l ++ [q] := by
      rw [firsts_concat, if_neg (by simpa using hq)]
    have hrecord (p) (hp : p ∈ firsts l) : latest (l ++ [q]) p = latest l p := by
      rw [latest_concat, Value.same_comm, hne p (mem_of_mem_firsts hp), if_neg Bool.false_ne_true]
    have hlast : latest (l ++ [q]) q = q.2 := by
      rw [latest_concat, latest_eq_self hne, ite_self]
    have hput : put q.1 q.2 (records l) = records l ++ [q] := by
      refine put_eq_append fun e he ↦ ?_
      obtain ⟨p, hp, rfl⟩ := List.mem_map.mp he
      exact hne p (mem_of_mem_firsts hp)
    rw [hput, records, records, hfirsts, List.map_append, List.map_singleton, hlast]
    exact congrArg (· ++ [q]) (List.map_congr_left fun p hp ↦ by rw [hrecord p hp])

theorem insertAll_records (l m : List (Value × Value)) :
    (Table.mk j k (records l)).insertAll m = ⟨j, k, records (l ++ m)⟩ := by
  induction m generalizing l with
  | nil => rw [List.append_nil]; rfl
  | cons q m ih =>
    have hstep : (Table.mk j k (records l)).insert q.1 q.2 = ⟨j, k, records (l ++ [q])⟩ := by
      rw [insert, put_records]
    rw [insertAll, List.foldl_cons, hstep, ← insertAll, ih, List.append_assoc]
    rfl

theorem ofList_eq_records (l : List (Value × Value)) : ofList j k l = ⟨j, k, records l⟩ :=
  insertAll_records [] l

theorem find?_of_mem_firsts (hp : p ∈ firsts l) (hself : p.1.same p.1) :
    l.find? (·.1.same p.1) = some p := by
  induction l with
  | nil => cases hp
  | cons a l ih =>
    rw [firsts, List.mem_cons, List.mem_filter] at hp
    rw [List.find?_cons]
    obtain rfl | ⟨hp, hap⟩ := hp
    · rw [hself]
    · rw [Bool.not_eq_true'] at hap
      rw [hap, ih hp]

theorem find?_reverse_of_mem (hp : p ∈ l) (hself : p.1.same p.1) :
    ∃ q, l.reverse.find? (·.1.same p.1) = some q ∧ q.2 = latest l p := by
  have hsome : (l.reverse.find? (·.1.same p.1)).isSome :=
    List.find?_isSome.mpr ⟨p, List.mem_reverse.mpr hp, hself⟩
  obtain ⟨q, hq⟩ := Option.isSome_iff_exists.mp hsome
  exact ⟨q, hq, by rw [latest, hq, Option.getD_some]⟩

theorem firsts_filter (l : List (Value × Value)) :
    (firsts l).filter (fun p ↦ ¬ p.1.NaNFree) = l.filter fun p ↦ ¬ p.1.NaNFree := by
  induction l with
  | nil => rfl
  | cons a l ih =>
    have hrest : ((firsts l).filter fun q ↦ !a.1.same q.1).filter (fun p ↦ ¬ p.1.NaNFree) =
        (firsts l).filter fun p ↦ ¬ p.1.NaNFree := by
      rw [List.filter_filter]
      refine List.filter_congr fun q _ ↦ ?_
      by_cases hq : q.1.NaNFree
      · simp [hq]
      · simp [hq, Value.same_comm a.1, Value.same_of_not_nanFree hq]
    rw [firsts, List.filter_cons, List.filter_cons, hrest, ih]

theorem records_filter (l : List (Value × Value)) :
    (records l).filter (fun e ↦ ¬ e.1.NaNFree) = l.filter fun p ↦ ¬ p.1.NaNFree := by
  rw [records, List.filter_map, ← firsts_filter]
  refine map_eq_self fun p hp ↦ Prod.ext rfl (latest_eq_self fun q _ ↦ ?_)
  have hnan : ¬ p.1.NaNFree := of_decide_eq_true (List.mem_filter.mp hp).2
  rw [Value.same_comm, Value.same_of_not_nanFree hnan]

/-- However often and in whatever order keys are inserted, no two entries have equal keys. The keys
are those that equalled none before them, in the order in which they came; with each stands the value
that came last with a key equal to it. A key that a NaN occurs in equals none, and each time it comes
it has an entry of its own. -/
theorem ofList_replaces (j k : Kind) (l : List (Value × Value)) :
    let t := ofList j k l
    t.keyKind = j ∧ t.valueKind = k ∧ (t.entries.Pairwise fun a b ↦ a.1.same b.1 = false) ∧
      t.entries.map (·.1) = (firsts l).map (·.1) ∧
      (∀ e ∈ t.entries, e.1.NaNFree →
        (∃ p, l.find? (·.1.same e.1) = some p ∧ p.1 = e.1) ∧
          ∃ p, l.reverse.find? (·.1.same e.1) = some p ∧ p.2 = e.2) ∧
      (t.entries.filter fun e ↦ ¬ e.1.NaNFree) = l.filter fun p ↦ ¬ p.1.NaNFree := by
  intro t
  have ht : t = ⟨j, k, records l⟩ := ofList_eq_records l
  rw [ht]
  refine ⟨rfl, rfl, apart_records l, ?_, ?_, records_filter l⟩
  · rw [records, List.map_map]
    rfl
  · intro e he hnan
    obtain ⟨p, hp, rfl⟩ := List.mem_map.mp he
    have hself : p.1.same p.1 := Value.same_self_iff.mpr hnan
    exact ⟨⟨p, find?_of_mem_firsts hp hself, rfl⟩, find?_reverse_of_mem (mem_of_mem_firsts hp) hself⟩

/-- Two zeros, which are one key, and a NaN that comes twice. -/
theorem zeros_replace :
    let key (bits : UInt64) : Value := .pointer (.float (.f64 bits))
    let zero := key 0
    let negative := key 0x8000000000000000
    let nan := key 0x7FF8000000000000
    let l := [(zero, .bool true), (nan, .bool true), (nan, .bool false), (negative, .bool false)]
    let t := ofList .pointer .bool l
    (zero, .bool false) ∈ t.entries ∧ zero.NaNFree ∧
      (∃ p, l.find? (·.1.same zero) = some p ∧ p.1 = zero) ∧
      (∃ p, l.reverse.find? (·.1.same zero) = some p ∧ p.2 = .bool false) ∧
      (t.entries.filter fun e ↦ ¬ e.1.NaNFree) = [(nan, .bool true), (nan, .bool false)] := by
  intro key zero negative nan l t
  obtain ⟨-, -, -, -, hkept, hnan⟩ := ofList_replaces .pointer .bool l
  have hmem : (zero, .bool false) ∈ t.entries := by decide +kernel
  have hzero : zero.NaNFree := by decide +kernel
  have htwice : (l.filter fun p ↦ ¬ p.1.NaNFree) = [(nan, .bool true), (nan, .bool false)] := by
    decide +kernel
  obtain ⟨hfirst, hlast⟩ := hkept _ hmem hzero
  exact ⟨hmem, hzero, hfirst, hlast, hnan.trans htwice⟩

end Table

end TaggedWire
