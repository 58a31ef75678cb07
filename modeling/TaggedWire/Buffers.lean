import TaggedWire.Fault

namespace TaggedWire

/-- Nested byte buffers: one takes the bytes, the others wait for it, the nearest first. The
outermost is never given up. -/
structure Buffers where
  active : Array UInt8 := #[]
  waiting : List (Array UInt8) := []
  deriving DecidableEq

namespace Buffers

def nesting (b : Buffers) : Nat := b.waiting.length

def put (b : Buffers) (bytes : List UInt8) : Buffers :=
  { b with active := b.active ++ bytes }

def enter (b : Buffers) : Buffers := ⟨#[], b.active :: b.waiting⟩

def leave : Buffers → Except Defect (List UInt8 × Buffers)
  | ⟨_, []⟩ => .error .unmatchedLeave
  | ⟨inner, outer :: waiting⟩ => .ok (inner.toList, ⟨outer, waiting⟩)

/-- Moves what the active buffer holds to the end of the one around it. -/
def merge (b : Buffers) : Except Defect (List UInt8 × Buffers) := do
  let (bytes, outer) ← b.leave
  return (bytes, outer.put bytes)

def finish (b : Buffers) : Except Defect (List UInt8) :=
  if b.waiting.isEmpty then .ok b.active.toList else .error .openBuffers

/-- All bytes, from the outermost buffer inward. -/
def contents (b : Buffers) : List UInt8 :=
  (b.waiting.reverse.flatMap fun a ↦ a.toList) ++ b.active.toList

@[simp] theorem nesting_put (b : Buffers) (bytes : List UInt8) :
    (b.put bytes).nesting = b.nesting := rfl

@[simp] theorem nesting_enter (b : Buffers) : b.enter.nesting = b.nesting + 1 := rfl

@[simp] theorem put_nil (b : Buffers) : b.put [] = b := by
  simp [put]

@[simp] theorem put_put (b : Buffers) (xs ys : List UInt8) :
    (b.put xs).put ys = b.put (xs ++ ys) := by
  simp [put, ← Array.toList_inj]

@[simp] theorem leave_put_enter (b : Buffers) (bytes : List UInt8) :
    (b.enter.put bytes).leave = .ok (bytes, b) := by
  simp [enter, put, leave]

theorem leave_eq_error_iff {b : Buffers} {d : Defect} :
    b.leave = .error d ↔ b.nesting = 0 ∧ d = .unmatchedLeave := by
  rcases b with ⟨a, _ | ⟨o, w⟩⟩ <;> simp [leave, nesting, eq_comm]

@[simp] theorem contents_put (b : Buffers) (bytes : List UInt8) :
    (b.put bytes).contents = b.contents ++ bytes := by
  simp [put, contents]

@[simp] theorem contents_enter (b : Buffers) : b.enter.contents = b.contents := by
  simp [enter, contents]

inductive Move
  | enter
  | put (bytes : List UInt8)
  | leave
  | merge
  deriving DecidableEq

def move (b : Buffers) : Move → Except Defect (Option (List UInt8) × Buffers)
  | .enter => .ok (none, b.enter)
  | .put bytes => .ok (none, b.put bytes)
  | .leave => b.leave.map fun (bytes, c) ↦ (some bytes, c)
  | .merge => b.merge.map fun (bytes, c) ↦ (some bytes, c)

end Buffers

end TaggedWire
