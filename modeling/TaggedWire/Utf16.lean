namespace TaggedWire

namespace Utf16

/-- One code unit up to U+FFFF, above it a high and a low surrogate. -/
def ofChar (c : Char) : List UInt16 :=
  if c.toNat < 0x10000 then [c.toNat.toUInt16]
  else
    let n := c.toNat - 0x10000
    [(0xD800 + n / 0x400).toUInt16, (0xDC00 + n % 0x400).toUInt16]

def encode (s : List Char) : List UInt16 := s.flatMap ofChar

def bytes (units : List UInt16) : List UInt8 :=
  units.flatMap fun (u : UInt16) ↦ [u.toUInt8, (u >>> 8).toUInt8]

def isSurrogate (u : UInt16) : Bool := 0xD800 ≤ u.toNat && u.toNat < 0xE000

def decode : List UInt16 → Option (List Char)
  | [] => some []
  | u :: rest =>
    if !isSurrogate u then (decode rest).map (Char.ofNat u.toNat :: ·)
    else
      match rest with
      | [] => none
      | v :: rest =>
        if u.toNat < 0xDC00 ∧ 0xDC00 ≤ v.toNat ∧ v.toNat < 0xE000 then
          (decode rest).map (Char.ofNat
            (0x10000 + (u.toNat - 0xD800) * 0x400 + (v.toNat - 0xDC00)) :: ·)
        else none

def takeUnits : (n : Nat) → List UInt8 → Option (List UInt16 × List UInt8)
  | 0, bytes => some ([], bytes)
  | n + 1, low :: high :: rest =>
    (takeUnits n rest).map fun (units, left) ↦ ((low.toNat + 256 * high.toNat).toUInt16 :: units, left)
  | _ + 1, _ => none

end Utf16

end TaggedWire
