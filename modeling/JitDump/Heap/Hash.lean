import JitDump.Bytes

/-! # The hash of a string

The mixing constants are those of Bob Jenkins' lookup3. A string of four bytes or more is sampled
in four windows of four bytes, a shorter one in three single bytes, so strings that agree on their
samples collide. -/

namespace JitDump.Heap

/-- The number that some bytes spell, the lowest first. -/
def spelled : Bytes → UInt32
  | [] => 0
  | b :: rest => b.toUInt32 ||| spelled rest <<< 8

/-- The width of a sample of a string of `n` bytes. -/
def sampleWidth (n : Nat) : Nat := if 4 ≤ n then 4 else 1

/-- Where a string of `n` bytes is sampled: first, last, middle and, if it has four bytes, quarter.
The empty string has no sample. -/
def sampleOffsets (n : Nat) : List Nat :=
  if 4 ≤ n then [0, n - 4, n / 2 - 2, n / 4 - 1]
  else if n = 0 then []
  else [0, n - 1, n / 2]

/-- The samples of a string, in the order of their offsets. -/
def samples (s : Bytes) : List UInt32 :=
  (sampleOffsets s.length).map fun offset =>
    spelled ((s.drop offset).take (sampleWidth s.length))

def rotateLeft (w : UInt32) (k : UInt32) : UInt32 := w <<< k ||| w >>> (32 - k)

/-- The last rounds of mixing, over the three running words. -/
def mix (a b h : UInt32) : UInt32 :=
  let a := a ^^^ h
  let a := a - rotateLeft h 11
  let b := b ^^^ a
  let b := b - rotateLeft a 25
  let h := h ^^^ b
  h - rotateLeft b 16

/-- The hash of a string of `n` bytes from its samples. -/
def hashSamples (n : Nat) (first last middle quarter : UInt32) : UInt32 :=
  let h := UInt32.ofNat n ^^^ last ^^^ middle
  mix first (middle + quarter) (h - rotateLeft middle 14)

def hashBytes (s : Bytes) : UInt32 :=
  match samples s with
  | [first, last, middle, quarter] => hashSamples s.length first last middle quarter
  | [first, last, middle] => hashSamples s.length first last middle 0
  | _ => 0

@[simp] theorem hashBytes_nil : hashBytes [] = 0 := rfl

end JitDump.Heap
