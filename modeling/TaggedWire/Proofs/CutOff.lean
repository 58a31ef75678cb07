import TaggedWire.Proofs.Framing
import TaggedWire.Proofs.Leading
import TaggedWire.Proofs.Limit

namespace TaggedWire

open Layout

/-- At `e` the computation puts all of `full`, or the limit stops it with the byte `c` of it and
those after it still to come. -/
inductive Write.Reaches (w : Write) (e : Encoder) (full : List UInt8) : Prop
  | whole (h : w e = .ok () (e.put full))
  | cut {bs rest : List UInt8} {c : UInt8} (hfull : full = bs ++ c :: rest)
      (h : w e = .error (.fault (.depthExceeded e.options.maxDepth)) (e.put bs))

namespace Write.Reaches

variable {w w' : Write} {e : Encoder} {full x y : List UInt8}

theorem put (bs : List UInt8) (e : Encoder) : (Write.put bs).Reaches e bs := .whole rfl

theorem send {l : Layout} (h : l = .ok full) (e : Encoder) : (Write.send l).Reaches e full :=
  h ▸ .put full e

theorem stopped (hfull : full ≠ [])
    (h : w e = .error (.fault (.depthExceeded e.options.maxDepth)) e) : w.Reaches e full := by
  obtain ⟨c, rest, rfl⟩ := List.exists_cons_of_ne_nil hfull
  exact .cut (List.nil_append (c :: rest)).symm (by rw [h, e.put_nil])

theorem congr (h : w'.Reaches e full) (hw : w e = w' e) : w.Reaches e full := by
  cases h with
  | whole h => exact .whole (hw.trans h)
  | cut hfull h => exact .cut hfull (hw.trans h)

theorem of_error {m : Encoder} {f : Failure} (h : w.Reaches e full) (herror : w e = .error f m) :
    f = .fault (.depthExceeded e.options.maxDepth) ∧
      ∃ bs, m = e.put bs ∧ bs <+: full ∧ bs ≠ full := by
  cases h with
  | whole h =>
    rw [h] at herror
    cases herror
  | @cut bs rest c hfull h =>
    subst hfull
    rw [h] at herror
    cases herror
    exact ⟨rfl, bs, rfl, List.prefix_append .., by simp⟩

theorem check {l : Except Fault Unit} (hl : l = .ok ()) (h : w.Reaches e full) :
    Reaches (do Write.lift l; w) e full :=
  hl ▸ h

theorem get {f : Encoder → Write} (h : (f e).Reaches e full) : Reaches (get >>= f) e full :=
  h.congr rfl

theorem of_yields {α : Type} {w : Writing α} {f : α → Write} {x : Except Fault α} {a : α}
    (hw : w.Yields e x) (hx : Steady e.options.maxDepth x (.ok a)) (hfull : full ≠ [])
    (h : (f a).Reaches e full) : Reaches (w >>= f) e full := by
  rcases hx with rfl | rfl
  · exact stopped hfull (Writing.bind_of_error hw)
  · exact h.congr (Writing.bind_of_ok hw)

theorem seq (h : w.Reaches e x) (h' : w'.Reaches (e.put x) y) :
    Reaches (do w; w') e (x ++ y) := by
  cases h with
  | cut hx hw =>
    subst hx
    exact .cut (List.append_assoc ..) (Writing.bind_of_error hw)
  | whole hw =>
    cases h' with
    | whole hw' => exact .whole (by rw [Writing.bind_of_ok hw, hw', e.put_put])
    | @cut bs rest c hy hw' =>
      subst hy
      refine .cut (List.append_assoc x bs (c :: rest)).symm ?_
      rw [Writing.bind_of_ok hw, hw', e.put_put]
      rfl

theorem deeper (hfull : full ≠ []) (h : ∀ hd, w.Reaches (e.deepen hd) full) :
    w.deeper.Reaches e full := by
  by_cases hd : e.depth < e.options.maxDepth
  · cases h hd with
    | whole hw => exact .whole (by simp only [Write.deeper, dif_pos hd, hw, e.rise_put_deepen])
    | cut hfull hw =>
      refine .cut hfull ?_
      simp only [Write.deeper, dif_pos hd, hw, e.rise_put_deepen]
      rfl
  · exact stopped hfull (dif_neg hd)

theorem object (hsize : Frame.size x < capacity Frame.headerSize) (h : w.Reaches e.enter x) :
    w.object.Reaches e (Frame.around x) := by
  cases h with
  | whole hw =>
    refine .whole ?_
    rw [object_of_ok hw, frame_eq, Piece.object_eq_ok.mpr ⟨hsize, rfl⟩]
    rfl
  | cut hx hw => exact stopped (List.cons_ne_nil _ _) (object_of_error hw)

theorem forM {α : Type} {f : α → Write} {l : α → Layout} {as : List α}
    (h : ∀ a ∈ as, ∀ x, l a = .ok x → ∀ bs, (f a).Reaches (e.put bs) x)
    (hfull : concat (as.map l) = .ok full) : Reaches (ForM.forM as f) e full := by
  induction as generalizing e full with
  | nil =>
    cases hfull
    exact .whole (by rw [e.put_nil]; rfl)
  | cons a as ih =>
    rw [List.map_cons, concat_cons] at hfull
    simp only [bind_eq_ok, pure_eq_ok] at hfull
    obtain ⟨x, hx, y, hy, rfl⟩ := hfull
    have hhead : (f a).Reaches e x := by simpa using h a List.mem_cons_self x hx []
    refine hhead.seq (ih ?_ hy)
    intro b hb z hz bs
    simpa using h b (List.mem_cons_of_mem a hb) z hz (x ++ bs)

end Write.Reaches

namespace Value

variable {o : Options} {e : Encoder} {n d : Nat} {v : Value} {full : List UInt8}

def ReachesUpTo (n : Nat) (v : Value) : Prop :=
  ∀ ⦃e : Encoder⦄ ⦃d : Nat⦄ ⦃full : List UInt8⦄, e.options.maxDepth ≤ n → d ≤ e.depth →
    v.layout { e.options with maxDepth := n } d = .ok full → v.write.Reaches e full

theorem leaf_reaches (h : v.CustomFree) (hfull : v.body o (d + 1) = .ok full)
    (hleaf : v.body e.options (e.depth + 1) = v.body o (d + 1)) : v.write.Reaches e full := by
  refine .deeper (body_ne_nil h hfull) fun hd ↦ .whole ?_
  have hfollows := emit_follows v h (e.deepen hd)
  have hbody : v.body (e.deepen hd).options (e.deepen hd).depth = .ok full := hleaf.trans hfull
  rw [hbody] at hfollows
  exact hfollows

theorem entry_reaches {a : Value × Value} (hkey : a.1.ReachesUpTo n) (hvalue : a.2.ReachesUpTo n)
    (hn : e.options.maxDepth ≤ n) (hd : d ≤ e.depth)
    (hfull : entryLayout { e.options with maxDepth := n } d a = .ok full) :
    (writeEntry a).Reaches e full := by
  obtain ⟨-, y, z, hy, hz, hsize, rfl⟩ := entryLayout_eq_ok.mp hfull
  refine .deeper (List.cons_ne_nil _ _) fun hdeep ↦ .object hsize (.seq ?_ ?_)
  · exact hkey hn (Nat.succ_le_succ hd) hy
  · exact hvalue hn (Nat.succ_le_succ hd) hz

theorem order_reaches {k : Kind} {es arranged : List (Value × Value)}
    {w : List (Value × Value) → Write} (h : ∀ a ∈ es, a.1.CustomFree)
    (hkinds : ∀ a ∈ es, a.1.kind = k) (hn : e.options.maxDepth ≤ n) (hd : d ≤ e.depth)
    (horder : order e.options.sortedMaps k Prod.fst
      (fun a ↦ a.1.layout { e.options with maxDepth := n } d) es = .ok arranged)
    (hfull : full ≠ []) (hw : (w arranged).Reaches e full) :
    Write.Reaches (Write.arrange k Prod.fst (fun a ↦ a.1.write.alone) es >>= w) e full := by
  have hkeys := Writing.Yields.arrange hkinds fun a ha ↦
    Writing.Yields.alone (write_follows (emit_follows a.1 (h a ha)) e.scratch)
  have hsteady : Steady e.options.maxDepth
      (order e.options.sortedMaps k Prod.fst (fun a ↦ a.1.layout e.options e.depth) es)
      (.ok arranged) :=
    horder ▸ .order fun a ha ↦ layout_steady_of_le a.1 (h a ha) hn hd
  exact .of_yields hkeys hsteady hfull hw

theorem reachesUpTo (v : Value) (h : v.CustomFree) (n : Nat) : v.ReachesUpTo n := by
  induction v, h using CustomFree.induct with
  | bool b h | int n h | float x h | text s h | bytes bs h | nil h =>
    intro e d full hn hd hfull
    exact leaf_reaches h (layout_eq_ok.mp hfull).2 rfl
  | pointer v h ih =>
    intro e d full hn hd hfull
    obtain ⟨-, hbody⟩ := layout_eq_ok.mp hfull
    obtain ⟨y, hy, rfl⟩ := body_pointer_eq_ok.mp hbody
    refine .deeper (List.cons_ne_nil _ _) fun hdeep ↦ ?_
    have htarget : v.write.Reaches ((e.deepen hdeep).put [Tag.pointer]) y :=
      ih h.pointer hn (Nat.succ_le_succ hd) hy
    rw [emit]
    exact (Write.Reaches.put [Tag.pointer] _).seq htarget
  | object vs h ih =>
    intro e d full hn hd hfull
    obtain ⟨-, hbody⟩ := layout_eq_ok.mp hfull
    obtain ⟨p, hp, hsize, rfl⟩ := body_plain_eq_ok.mp hbody
    refine .deeper (List.cons_ne_nil _ _) fun hdeep ↦ ?_
    rw [emit, Object.emit, emitAll_eq]
    exact .object hsize <| .forM
      (fun v hv x hx bs ↦ ih v hv (h.plain v hv) hn (Nat.succ_le_succ hd) hx) hp
  | array k vs h ih =>
    intro e d full hn hd hfull
    obtain ⟨-, hbody⟩ := layout_eq_ok.mp hfull
    cases vs with
    | nil => exact leaf_reaches h hbody rfl
    | cons v vs =>
      refine .deeper (body_ne_nil h hbody) fun hdeep ↦ ?_
      obtain ⟨tag, rest, htag, hlength, hkinds, hrest, rfl⟩ := body_array_cons_eq_ok.mp hbody
      have hcount := Piece.count_eq_ok.mpr ⟨hlength, rfl⟩
      rw [List.append_assoc, emit_array, emitItems_eq]
      refine .get (.seq (.send htag _) (.seq (.send hcount _) (.forM ?_ hrest)))
      intro w hw x hx bs
      apply Write.Reaches.check (check_eq_ok.mpr (hkinds w hw))
      exact ih w hw (h.array w hw) hn (Nat.succ_le_succ hd) hx
  | map j k es h ih =>
    intro e d full hn hd hfull
    obtain ⟨-, hbody⟩ := layout_eq_ok.mp hfull
    cases es with
    | nil => exact leaf_reaches h hbody rfl
    | cons a es =>
      refine .deeper (body_ne_nil h hbody) fun hdeep ↦ ?_
      have hfull := body_ne_nil h hbody
      obtain ⟨hkinds, hlength, arranged, rest, horder, hrest, rfl⟩ :=
        body_map_cons_eq_ok.mp hbody
      have hcount := Piece.count_eq_ok.mpr ⟨hlength, rfl⟩
      rw [emit_map_cons]
      apply Write.Reaches.check (checkEntries_eq_ok.mpr hkinds)
      -- A sorted map encodes its keys before its tag, so a limit met there leaves nothing.
      have hkeys (b) (hb : b ∈ a :: es) := (h.map b hb).1
      refine order_reaches hkeys (fun b hb ↦ (hkinds b hb).1) hn (Nat.succ_le_succ hd) horder hfull ?_
      have hperm := order_perm horder
      refine (Write.Reaches.put [Tag.object.asArray] _).seq (.seq (.send hcount _) (.forM ?_ hrest))
      intro b hb x hx bs
      have hmem := hperm.mem_iff.mp hb
      exact entry_reaches ((ih b hmem).1 (h.map b hmem).1) ((ih b hmem).2 (h.map b hmem).2) hn
        (Nat.succ_le_succ hd) hx

theorem write_reaches (h : v.CustomFree)
    (hfull : v.encode { e.options with maxDepth := n } = .ok full) : v.write.Reaches e full := by
  have hlow := (encode_eq_ok h).mp hfull
  have hhigh : v.layout { e.options with maxDepth := max n e.options.maxDepth } 0 = .ok full := by
    have hraise : n ≤ max n e.options.maxDepth := Nat.le_max_left ..
    rcases layout_steady (o := { e.options with maxDepth := n }) v h hraise 0 with hl | hl
    · rw [hlow] at hl
      cases hl
    · exact hl.trans hlow
  exact reachesUpTo v h _ (Nat.le_max_right ..) (Nat.zero_le _) hhigh

theorem write_object_restores {o : Object} (h : (object o).CustomFree) {f : Failure} {m : Encoder}
    (herror : (object o).write e = .error f m) : m = e := by
  cases o with
  | plain vs =>
    by_cases hd : e.depth < e.options.maxDepth
    · exact (Object.write_encloses vs hd).eq_of_error herror
    · rw [write, Write.deeper, dif_neg hd] at herror
      cases herror
      rfl
  | custom => exact absurd h not_customFree_custom

/-- A value that has a form under some limit fails only at the encoder's own limit, and leaves only
bytes that its form begins with, never all of them. An object leaves none. -/
theorem write_cut_off (v : Value) (h : v.CustomFree) (e : Encoder) (n : Nat) (full : List UInt8)
    (hfull : v.encode { e.options with maxDepth := n } = .ok full) (f : Failure) (m : Encoder)
    (herror : v.write e = .error f m) :
    f = .fault (.depthExceeded e.options.maxDepth) ∧
      ∃ bs, m = e.put bs ∧ bs <+: full ∧ bs ≠ full ∧ (v.kind = .object → bs = []) := by
  obtain ⟨rfl, bs, hm, hprefix, hne⟩ := (write_reaches h hfull).of_error herror
  refine ⟨rfl, ?_⟩
  by_cases hkind : v.kind = .object
  · obtain ⟨o, rfl⟩ := exists_eq_object hkind
    have hrest : full ≠ [] := by
      rintro rfl
      exact hne (List.prefix_nil.mp hprefix)
    refine ⟨[], ?_, List.nil_prefix, hrest.symm, fun _ ↦ rfl⟩
    rw [write_object_restores h herror, e.put_nil]
  · exact ⟨bs, hm, hprefix, hne, fun hobject ↦ absurd hobject hkind⟩

/-- The second object of an array meets the limit: the array's tag, its count and its first object
are left. -/
theorem write_second_cut_off :
    let v := array .object
      [object (.plain [bool true]), object (.plain [pointer (object (.plain []))])]
    let e : Encoder :=
      { options := { maxDepth := 5 }, buffers := ⟨#[0xAA], [#[0xBB]]⟩, depth := 2
        depth_le := by decide }
    let left : List UInt8 := [0x40, 2, 0x00, 8, 0, 0, 0, 0x0F, 0x82, 0x10, 0x11]
    let rest : List UInt8 :=
      [0x00, 16, 0, 0, 0, 0x0F, 0x01, 0x00, 7, 0, 0, 0, 0x0F, 0x10, 0x11, 0x10, 0x11]
    v.CustomFree ∧ v.encode { e.options with maxDepth := 4 } = .ok (left ++ rest) ∧
      v.write e = .error (.fault (.depthExceeded 5)) (e.put left) ∧
      ∃ bs, e.put left = e.put bs ∧ bs <+: left ++ rest ∧ bs ≠ left ++ rest := by
  intro v e left rest
  have hv : v.CustomFree := by decide
  have hfull : v.encode { e.options with maxDepth := 4 } = .ok (left ++ rest) :=
    eq_ok_of_toOption (by decide +kernel)
  have herror : v.write e = .error (.fault (.depthExceeded 5)) (e.put left) := by
    with_unfolding_all rfl
  obtain ⟨-, bs, hm, hprefix, hne, -⟩ := write_cut_off v hv e 4 _ hfull _ _ herror
  exact ⟨hv, hfull, herror, bs, hm, hprefix, hne⟩

end Value

end TaggedWire
