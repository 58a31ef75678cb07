import TaggedWire.Tag

namespace TaggedWire

namespace Frame

def headerSize : Nat := 4

def markerCount : Nat := 3

/-- What the length of an object counts: all of its bytes but its tag. -/
def size (payload : List UInt8) : Nat := payload.length + 7

def writeLE : (width : Nat) → Nat → List UInt8
  | 0, _ => []
  | width + 1, n => n.toUInt8 :: writeLE width (n / 256)

def readLE : List UInt8 → Nat
  | [] => 0
  | b :: bytes => b.toNat + 256 * readLE bytes

def around (payload : List UInt8) : List UInt8 :=
  Tag.object :: writeLE headerSize (size payload) ++ Tag.payloadBegin :: payload ++
    [Tag.payloadEnd, Tag.objectEnd]

/-- Skips an object by its length alone. -/
def hop (bytes : List UInt8) : List UInt8 :=
  bytes.drop (1 + readLE ((bytes.drop 1).take headerSize))

@[simp] theorem length_writeLE (width n : Nat) : (writeLE width n).length = width := by
  induction width generalizing n <;> simp [writeLE, *]

theorem readLE_writeLE (width n : Nat) : readLE (writeLE width n) = n % capacity width := by
  induction width generalizing n with
  | zero => simp [writeLE, readLE, capacity, Nat.mod_one]
  | succ width ih =>
    rw [writeLE, readLE, ih, capacity_succ, Nat.mod_mul]
    simp

theorem size_eq (payload : List UInt8) : size payload = payload.length + headerSize + markerCount :=
  rfl

theorem length_around (payload : List UInt8) : (around payload).length = size payload + 1 := by
  simp [around, size, headerSize]
  omega

theorem hop_around {payload : List UInt8} (h : size payload < capacity headerSize)
    (rest : List UInt8) : hop (around payload ++ rest) = rest := by
  have header : ((around payload ++ rest).drop 1).take headerSize =
      writeLE headerSize (size payload) := by
    simp only [around, List.cons_append, List.append_assoc, List.drop_succ_cons, List.drop_zero]
    exact List.take_left' (length_writeLE ..)
  rw [hop, header, readLE_writeLE, Nat.mod_eq_of_lt h, Nat.add_comm, ← length_around]
  exact List.drop_left

end Frame

end TaggedWire
