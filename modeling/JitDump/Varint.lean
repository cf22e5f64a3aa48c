import JitDump.Bytes

/-! # Numbers of variable length

A number is written in groups of seven bits, the lowest group first; every byte but the last has
its high bit set. A tagged number keeps a tag in the low bit of its first byte, which leaves six
bits for the number there. Bits beyond the thirty-second are dropped on reading. -/

namespace JitDump.Varint

/-- Whether another byte follows. -/
def continues (b : UInt8) : Bool := 0x80 ≤ b

def group (b : UInt8) : UInt32 := (b &&& 0x7f).toUInt32

/-- Adds groups to a number, the first of them at a bit offset. -/
def accumulate (v : UInt32) (shift : Nat) : Bytes → UInt32
  | [] => v
  | b :: rest =>
    accumulate (if shift < 32 then v ||| group b <<< UInt32.ofNat shift else v) (shift + 7) rest

def value (groups : Bytes) : UInt32 := accumulate 0 0 groups

/-- The number and the tag of a tagged number. -/
def taggedValue : Bytes → UInt32 × Bool
  | [] => (0, false)
  | first :: rest =>
    (accumulate ((first >>> 1) &&& 0x3f).toUInt32 6 rest, first &&& 1 != 0)

/-! ## Writing -/

/-- The groups of a number, as few as it needs. -/
def encodeNat (n : Nat) : Bytes :=
  if n < 0x80 then [UInt8.ofNat n] else UInt8.ofNat (n % 0x80 + 0x80) :: encodeNat (n / 0x80)
termination_by n
decreasing_by omega

def encode (v : UInt32) : Bytes := encodeNat v.toNat

def encodeTagged (v : UInt32) (tag : Bool) : Bytes :=
  let first := v.toNat % 0x40 * 2 + tag.toNat
  if v.toNat < 0x40 then [UInt8.ofNat first]
  else UInt8.ofNat (first + 0x80) :: encodeNat (v.toNat / 0x40)

end JitDump.Varint
