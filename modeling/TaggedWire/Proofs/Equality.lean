import TaggedWire.Proofs.Interchange
import TaggedWire.Value.Equality

namespace TaggedWire

namespace FloatBits

variable {x y : FloatBits}

def mergeZeros (x : FloatBits) : FloatBits :=
  if x.isZero then
    match x.kind with
    | .f32 => f32 0
    | .f64 => f64 0
  else x

theorem kind_mergeZeros (x : FloatBits) : x.mergeZeros.kind = x.kind := by
  unfold mergeZeros
  split
  · cases x <;> rfl
  · rfl

theorem isZero_mergeZeros (x : FloatBits) : x.mergeZeros.isZero = x.isZero := by
  unfold mergeZeros
  split
  · rename_i hx
    rw [hx]
    cases x <;> rfl
  · rfl

theorem mergeZeros_eq_iff :
    x.mergeZeros = y.mergeZeros ↔ x.kind = y.kind ∧ (x = y ∨ x.isZero ∧ y.isZero) := by
  constructor
  · intro h
    have hkind : x.kind = y.kind := by rw [← kind_mergeZeros x, h, kind_mergeZeros]
    have hzero : x.isZero = y.isZero := by rw [← isZero_mergeZeros x, h, isZero_mergeZeros]
    refine ⟨hkind, ?_⟩
    by_cases hx : x.isZero
    · exact .inr ⟨hx, hzero ▸ hx⟩
    · rw [mergeZeros, mergeZeros, if_neg hx, if_neg (hzero ▸ hx)] at h
      exact .inl h
  · rintro ⟨hkind, rfl | ⟨hx, hy⟩⟩
    · rfl
    · rw [mergeZeros, mergeZeros, if_pos hx, if_pos hy, hkind]

theorem same_iff : x.same y ↔ x.isNaN = false ∧ y.isNaN = false ∧ x.mergeZeros = y.mergeZeros := by
  simp only [same, mergeZeros_eq_iff, Bool.and_eq_true, Bool.or_eq_true, Bool.not_eq_true',
    decide_eq_true_eq, identical_iff]
  grind

end FloatBits

namespace Value

variable {u v w : Value} {vs ws : List Value} {es fs : List (Value × Value)}

def mergeZero : Value → Value
  | float x => float x.mergeZeros
  | v => v

def mergeZeros (v : Value) : Value := v.rebuild mergeZero

theorem mergeZero_interchangeable (v : Value) : Interchangeable v.mergeZero v := by
  cases v with
  | float x =>
    refine ⟨?_, x.isZero_mergeZeros, rfl, ?_⟩
    · rw [mergeZero, kind, kind, x.kind_mergeZeros]
    · rw [mergeZero, emit_float, emit_float, x.kind_mergeZeros]
  | _ => exact .refl _

theorem mergeZeros_interchangeable (v : Value) : Interchangeable v.mergeZeros v :=
  rebuild_interchangeable mergeZero_interchangeable v

theorem mergeZeros_plain :
    (object (.plain vs)).mergeZeros = object (.plain (vs.map mergeZeros)) := by
  rw [mergeZeros, rebuild, rebuildAll_eq]
  rfl

theorem mergeZeros_custom {id : Nat} {program : List Step} :
    (object (.custom id program vs)).mergeZeros =
      object (.custom id program (vs.map mergeZeros)) := by
  rw [mergeZeros, rebuild, rebuildAll_eq]
  rfl

theorem mergeZeros_array {k : Kind} : (array k vs).mergeZeros = array k (vs.map mergeZeros) := by
  rw [mergeZeros, rebuild, rebuildAll_eq]
  rfl

theorem mergeZeros_map {j k : Kind} :
    (map j k es).mergeZeros = map j k (es.map fun e ↦ (e.1.mergeZeros, e.2.mergeZeros)) := by
  rw [mergeZeros, rebuild, rebuildEntries_eq]
  rfl

theorem nanFree_iff : v.NaNFree ↔ Everywhere (fun w ↦ ∀ x, w = float x → x.isNaN = false) v := by
  constructor
  · rintro h w hw x rfl
    exact h x hw
  · exact fun h x hx ↦ h _ hx x rfl

theorem nanFree_pointer : (pointer v).NaNFree ↔ v.NaNFree := by
  simp [nanFree_iff]

theorem nanFree_plain : (object (.plain vs)).NaNFree ↔ ∀ v ∈ vs, v.NaNFree := by
  simp [nanFree_iff]

theorem nanFree_custom {id : Nat} {program : List Step} :
    (object (.custom id program vs)).NaNFree ↔ ∀ v ∈ vs, v.NaNFree := by
  simp [nanFree_iff]

theorem nanFree_array {k : Kind} : (array k vs).NaNFree ↔ ∀ v ∈ vs, v.NaNFree := by
  simp [nanFree_iff]

theorem nanFree_map {j k : Kind} :
    (map j k es).NaNFree ↔ ∀ e ∈ es, e.1.NaNFree ∧ e.2.NaNFree := by
  simp [nanFree_iff]

/-- What makes two values equal: no NaN on either side, and no difference but in the signs of
zeros. -/
def Matches (v w : Value) : Prop := v.NaNFree ∧ w.NaNFree ∧ v.mergeZeros = w.mergeZeros

theorem allAgree_iff (h : ∀ v ∈ vs, ∀ w, v.agrees FloatBits.same w ↔ Matches v w) :
    allAgree FloatBits.same vs ws ↔
      (∀ v ∈ vs, v.NaNFree) ∧ (∀ w ∈ ws, w.NaNFree) ∧ vs.map mergeZeros = ws.map mergeZeros := by
  induction vs generalizing ws with
  | nil => cases ws <;> simp [allAgree]
  | cons v vs ih =>
    obtain ⟨hv, hvs⟩ := List.forall_mem_cons.mp h
    cases ws with
    | nil => simp [allAgree]
    | cons w ws =>
      simp only [allAgree, Bool.and_eq_true, hv, ih hvs, Matches, List.forall_mem_cons,
        List.map_cons, List.cons.injEq]
      grind

theorem entriesAgree_iff (h : ∀ e ∈ es, (∀ w, e.1.agrees FloatBits.same w ↔ Matches e.1 w) ∧
      ∀ w, e.2.agrees FloatBits.same w ↔ Matches e.2 w) :
    entriesAgree FloatBits.same es fs ↔
      (∀ e ∈ es, e.1.NaNFree ∧ e.2.NaNFree) ∧ (∀ e ∈ fs, e.1.NaNFree ∧ e.2.NaNFree) ∧
      es.map (fun e ↦ (e.1.mergeZeros, e.2.mergeZeros)) =
        fs.map fun e ↦ (e.1.mergeZeros, e.2.mergeZeros) := by
  induction es generalizing fs with
  | nil => cases fs <;> simp [entriesAgree]
  | cons e es ih =>
    obtain ⟨⟨hkey, hvalue⟩, hes⟩ := List.forall_mem_cons.mp h
    cases fs with
    | nil => simp [entriesAgree]
    | cons f fs =>
      obtain ⟨k, v⟩ := e
      obtain ⟨j, w⟩ := f
      simp only [entriesAgree, Bool.and_eq_true, hkey, hvalue, ih hes, Matches,
        List.forall_mem_cons, List.map_cons, List.cons.injEq, Prod.mk.injEq]
      grind

theorem agrees_iff (v w : Value) : v.agrees FloatBits.same w ↔ Matches v w := by
  induction v using by_parts generalizing w with
  | bool | int | float | text | bytes | nil =>
    cases w using by_parts <;>
      simp [agrees, Matches, mergeZeros, rebuild, mergeZero, NaNFree, subvalues, inside,
        FloatBits.same_iff]
  | pointer v ih =>
    cases w using by_parts with
    | pointer w => simp [agrees, Matches, mergeZeros, rebuild, mergeZero, nanFree_pointer, ih]
    | _ => simp [agrees, Matches, mergeZeros, rebuild, mergeZero]
  | plain vs ih =>
    cases w using by_parts with
    | plain ws =>
      rw [agrees, Object.agrees, allAgree_iff ih, Matches, nanFree_plain, nanFree_plain,
        mergeZeros_plain, mergeZeros_plain, object.injEq, Object.plain.injEq]
    | _ => simp [agrees, Object.agrees, Matches, mergeZeros, rebuild, mergeZero]
  | custom i p vs ih =>
    cases w using by_parts with
    | custom j q ws =>
      simp only [agrees, Object.agrees, Bool.and_eq_true, beq_iff_eq, Step.allIdentical_iff,
        allAgree_iff ih, Matches, nanFree_custom, mergeZeros_custom, object.injEq,
        Object.custom.injEq]
      grind
    | _ => simp [agrees, Object.agrees, Matches, mergeZeros, rebuild, mergeZero]
  | array k vs ih =>
    cases w using by_parts with
    | array j ws =>
      simp only [agrees, Bool.and_eq_true, decide_eq_true_eq, allAgree_iff ih, Matches,
        nanFree_array, mergeZeros_array, array.injEq]
      grind
    | _ => simp [agrees, Matches, mergeZeros, rebuild, mergeZero]
  | map j k es ih =>
    cases w using by_parts with
    | map j' k' fs =>
      simp only [agrees, Bool.and_eq_true, decide_eq_true_eq, entriesAgree_iff ih, Matches,
        nanFree_map, mergeZeros_map, map.injEq]
      grind
    | _ => simp [agrees, Matches, mergeZeros, rebuild, mergeZero]

theorem same_iff : v.same w ↔ v.NaNFree ∧ w.NaNFree ∧ v.mergeZeros = w.mergeZeros :=
  agrees_iff v w

theorem same_comm (v w : Value) : v.same w = w.same v := by
  rw [Bool.eq_iff_iff, same_iff, same_iff, and_left_comm, eq_comm]

theorem same_trans (h : u.same v) (h' : v.same w) : u.same w := by
  obtain ⟨hu, -, huv⟩ := same_iff.mp h
  obtain ⟨-, hw, hvw⟩ := same_iff.mp h'
  exact same_iff.mpr ⟨hu, hw, huv.trans hvw⟩

theorem same_self_iff : v.same v ↔ v.NaNFree := by
  rw [same_iff]
  simp only [and_true, and_self]

instance : Decidable v.NaNFree := decidable_of_iff _ same_self_iff

theorem same_of_not_nanFree (h : ¬ v.NaNFree) (w : Value) : v.same w = false := by
  rw [← Bool.not_eq_true, same_iff]
  exact fun hvw ↦ h hvw.1

theorem same_interchangeable (h : v.same w) : Interchangeable v w := by
  obtain ⟨-, -, heq⟩ := same_iff.mp h
  exact v.mergeZeros_interchangeable.symm.trans (heq ▸ w.mergeZeros_interchangeable)

def FloatFree (v : Value) : Prop := Everywhere (fun w ↦ ∀ x, w ≠ float x) v

theorem FloatFree.nanFree (h : v.FloatFree) : v.NaNFree := fun x hx ↦ absurd rfl (h _ hx x)

theorem FloatFree.mergeZeros (h : v.FloatFree) : v.mergeZeros = v := by
  refine rebuild_eq_self fun w hw ↦ ?_
  cases w with
  | float x => exact absurd rfl (h _ hw x)
  | _ => rfl

theorem FloatFree.same_iff (hv : v.FloatFree) (hw : w.FloatFree) : v.same w ↔ v = w := by
  rw [Value.same_iff, hv.mergeZeros, hw.mergeZeros]
  exact ⟨fun h ↦ h.2.2, fun h ↦ ⟨hv.nanFree, hw.nanFree, h⟩⟩

/-- Equality is symmetric and transitive, and a value equals itself unless a NaN occurs in it. Equal
values have one kind, are zero together, and every encoder does the same with them. -/
theorem same_is_respected :
    (∀ v w : Value, v.same w → w.same v) ∧
    (∀ u v w : Value, u.same v → v.same w → u.same w) ∧
    (∀ v : Value, v.same v ↔ v.NaNFree) ∧
    ∀ v w : Value, v.same w → v.kind = w.kind ∧ v.isZero = w.isZero ∧
      ∀ e : Encoder, v.write e = w.write e := by
  refine ⟨?_, fun u v w ↦ same_trans, fun v ↦ same_self_iff, ?_⟩
  · intro v w h
    rwa [same_comm w v]
  · intro v w h
    have hvw := same_interchangeable h
    exact ⟨hvw.kind, hvw.isZero, congrFun hvw.write⟩

/-- Two arrays that differ in the sign of a zero: every encoder writes both up to there. -/
theorem signed_zeros_same :
    let items (bits : UInt64) : List Value :=
      [object (.custom 7 [.describe] []), object (.plain [bool true, float (.f64 bits)])]
    let v := array .object (items 0)
    let w := array .object (items 0x8000000000000000)
    v ≠ w ∧ v.same w ∧ w.same v ∧ v.same v ∧ v.NaNFree ∧ ∀ e : Encoder, v.write e = w.write e := by
  intro items v w
  obtain ⟨hsymm, htrans, hself, hrespected⟩ := same_is_respected
  have hvw : v.same w := by decide +kernel
  have hwv : w.same v := hsymm v w hvw
  have hvv : v.same v := htrans v w v hvw hwv
  exact ⟨by simp [v, w, items], hvw, hwv, hvv, (hself v).mp hvv, (hrespected v w hvw).2.2⟩

end Value

end TaggedWire
