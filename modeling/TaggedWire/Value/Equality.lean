import TaggedWire.Value.Basic

namespace TaggedWire

mutual

/-- Equality of structure, with the floating-point numbers compared by `eq`. Two programs are one
when their identities and their texts agree, bit for bit. -/
def Value.agrees (eq : FloatBits → FloatBits → Bool) : Value → Value → Bool
  | .bool a, .bool b => a == b
  | .int m, .int n => m = n
  | .float x, .float y => eq x y
  | .text s, .text t => s == t
  | .bytes a, .bytes b => a == b
  | .nil, .nil => true
  | .pointer v, .pointer w => v.agrees eq w
  | .object o, .object p => o.agrees eq p
  | .array j vs, .array k ws => j = k && Value.allAgree eq vs ws
  | .map j e vs, .map k f ws => j = k && e = f && Value.entriesAgree eq vs ws
  | _, _ => false

def Object.agrees (eq : FloatBits → FloatBits → Bool) : Object → Object → Bool
  | .plain vs, .plain ws => Value.allAgree eq vs ws
  | .custom i p vs, .custom j q ws => i == j && Step.allIdentical p q && Value.allAgree eq vs ws
  | _, _ => false

def Value.allAgree (eq : FloatBits → FloatBits → Bool) : List Value → List Value → Bool
  | [], [] => true
  | v :: vs, w :: ws => v.agrees eq w && Value.allAgree eq vs ws
  | _, _ => false

def Value.entriesAgree (eq : FloatBits → FloatBits → Bool) :
    List (Value × Value) → List (Value × Value) → Bool
  | [], [] => true
  | (j, v) :: vs, (k, w) :: ws => j.agrees eq k && v.agrees eq w && Value.entriesAgree eq vs ws
  | _, _ => false

def Step.identical : Step → Step → Bool
  | .tag s, .tag t => s == t
  | .raw a, .raw b => a == b
  | .unsigned w m, .unsigned x n => w == x && m == n
  | .signed w u, .signed x v => w == x && u == v
  | .value v, .value w => v.agrees FloatBits.identical w
  | .record o, .record p => o.agrees FloatBits.identical p
  | .object a, .object b => Step.allIdentical a b
  | .describe, .describe => true
  | .attempt a, .attempt b => Step.allIdentical a b
  | .fail f, .fail g => f = g
  | _, _ => false

def Step.allIdentical : List Step → List Step → Bool
  | [], [] => true
  | s :: ss, t :: ts => s.identical t && Step.allIdentical ss ts
  | _, _ => false

end

mutual

theorem Value.agrees_identical_iff (v w : Value) :
    v.agrees FloatBits.identical w = true ↔ v = w := by
  cases v with
  | pointer v => cases w <;> simp [Value.agrees, Value.agrees_identical_iff v]
  | object o => cases w <;> simp [Value.agrees, Object.agrees_identical_iff o]
  | array j vs => cases w <;> simp [Value.agrees, Value.allAgree_identical_iff vs]
  | map j e vs => cases w <;> simp [Value.agrees, Value.entriesAgree_identical_iff vs, and_assoc]
  | _ => cases w <;> simp [Value.agrees]

theorem Object.agrees_identical_iff (o p : Object) :
    o.agrees FloatBits.identical p = true ↔ o = p := by
  cases o with
  | plain vs => cases p <;> simp [Object.agrees, Value.allAgree_identical_iff vs]
  | custom i ss vs =>
    cases p <;> simp [Object.agrees, Step.allIdentical_iff ss, Value.allAgree_identical_iff vs,
      and_assoc]

theorem Value.allAgree_identical_iff (vs ws : List Value) :
    Value.allAgree FloatBits.identical vs ws = true ↔ vs = ws := by
  cases vs with
  | nil => cases ws <;> simp [Value.allAgree]
  | cons v vs =>
    cases ws <;> simp [Value.allAgree, Value.agrees_identical_iff v, Value.allAgree_identical_iff vs]

theorem Value.entriesAgree_identical_iff (vs ws : List (Value × Value)) :
    Value.entriesAgree FloatBits.identical vs ws = true ↔ vs = ws := by
  cases vs with
  | nil => cases ws <;> simp [Value.entriesAgree]
  | cons e vs =>
    obtain ⟨k, v⟩ := e
    rcases ws with _ | ⟨⟨j, w⟩, ws⟩ <;>
      simp [Value.entriesAgree, Value.agrees_identical_iff k, Value.agrees_identical_iff v,
        Value.entriesAgree_identical_iff vs, and_assoc]

theorem Step.identical_iff (s t : Step) : s.identical t = true ↔ s = t := by
  cases s with
  | value v => cases t <;> simp [Step.identical, Value.agrees_identical_iff v]
  | record o => cases t <;> simp [Step.identical, Object.agrees_identical_iff o]
  | object ss => cases t <;> simp [Step.identical, Step.allIdentical_iff ss]
  | attempt ss => cases t <;> simp [Step.identical, Step.allIdentical_iff ss]
  | _ => cases t <;> simp [Step.identical]

theorem Step.allIdentical_iff (ss ts : List Step) :
    Step.allIdentical ss ts = true ↔ ss = ts := by
  cases ss with
  | nil => cases ts <;> simp [Step.allIdentical]
  | cons s ss =>
    cases ts <;> simp [Step.allIdentical, Step.identical_iff s, Step.allIdentical_iff ss]

end

instance : DecidableEq Value := fun v w ↦ decidable_of_iff _ (Value.agrees_identical_iff v w)

/-- Equality with IEEE 754 comparison at the leaves: `0.0` equals `-0.0`, a NaN equals nothing. -/
def Value.same (v w : Value) : Bool := v.agrees FloatBits.same w

end TaggedWire
