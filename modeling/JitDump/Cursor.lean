import JitDump.Fallible
import JitDump.Source
import JitDump.Varint

/-! # Reading a source through a buffer

A cursor holds the bytes that have come from its source and are not yet consumed. Before bytes are
consumed the buffer is filled until it holds them, in reads of a fixed size. An operation changes
the cursor whether or not it fails: a failure leaves what has come in the buffer, and reading may
go on. -/

namespace JitDump

structure Cursor where
  buffer : Bytes
  /-- How many bytes have been consumed. -/
  position : Nat
  /-- Whether the source has said that its input is over. -/
  ended : Bool
  source : Source

/-- An operation on a cursor. -/
abbrev Reading := Fallible Cursor

namespace Cursor

/-- How many bytes a read asks for. -/
def refillChunk : Nat := 64 * 1024

/-- The most bytes that an operation may ask to have in the buffer. -/
def maxBuffer : Nat := 0x7fffff00

def ofSource (s : Source) : Cursor := ⟨[], 0, false, s⟩

def remaining (c : Cursor) : Nat := c.buffer.length

def holds (c : Cursor) (n : Nat) : Bool := Bytes.hasAtLeast c.buffer n

def atEnd (c : Cursor) : Bool := c.ended && c.buffer.isEmpty

/-- The bytes in the buffer and those that its source still holds. -/
def undelivered (c : Cursor) : Nat := c.buffer.length + c.source.size

/-- A fault at the current position. -/
def failure (c : Cursor) (fault : Fault) : Failure := ⟨"", c.position, fault⟩

@[simp] theorem holds_eq (c : Cursor) (n : Nat) : c.holds n = decide (n ≤ c.buffer.length) := by
  simp [holds]

end Cursor

namespace Reading

open Cursor

def fail {α : Type} (fault : Fault) : Reading α := fun c => .error (c.failure fault) c

def position : Reading Nat := fun c => .ok c.position c

/-- Fills the buffer until it holds `n` bytes or the input is over. -/
def fill (n : Nat) : Reading Unit := fun c =>
  if maxBuffer < n then .error (c.failure (.bufferLimit n)) c
  else if c.ended then .ok () c
  else
    let p := c.source.pull refillChunk (n - c.buffer.length)
    let c := { c with buffer := c.buffer ++ p.bytes, source := p.rest }
    match p.outcome with
    | .enough => .ok () c
    | .ended => .ok () { c with ended := true }
    | .failed cause => .error (c.failure (.io cause)) c

/-- Has `n` bytes in the buffer, or fails. -/
def need (n : Nat) : Reading Unit := fun c =>
  if c.holds n then .ok () c
  else
    match fill n c with
    | .ok _ c => if c.holds n then .ok () c else .error (c.failure .truncatedInput) c
    | .error e c => .error e c

/-- Has `n` bytes in the buffer if the input goes that far. -/
def want (n : Nat) : Reading Unit := fun c =>
  if c.holds n || c.ended then .ok () c else fill n c

/-- The next byte in the buffer. -/
def peek : Reading (Option UInt8) := fun c => .ok c.buffer.head? c

/-- Consumes and returns `n` bytes. -/
def block (n : Nat) : Reading Bytes := fun c =>
  match need n c with
  | .ok _ c =>
    let (front, rest) := c.buffer.splitAt n
    .ok front { c with buffer := rest, position := c.position + n }
  | .error e c => .error e c

def skip (n : Nat) : Reading Unit := fun c =>
  match need n c with
  | .ok _ c => .ok () { c with buffer := c.buffer.drop n, position := c.position + n }
  | .error e c => .error e c

def byte : Reading UInt8 := fun c =>
  match need 1 c with
  | .ok _ c =>
    match c.buffer with
    | b :: rest => .ok b { c with buffer := rest, position := c.position + 1 }
    | [] => .error (c.failure .truncatedInput) c
  | .error e c => .error e c

def word16 (order : ByteOrder) : Reading UInt16 := do
  match ← block 2 with
  | [a, b] => pure (order.word16 a b)
  | _ => fail .truncatedInput

def word32 (order : ByteOrder) : Reading UInt32 := do
  match ← block 4 with
  | [a, b, c, d] => pure (order.word32 a b c d)
  | _ => fail .truncatedInput

/-! ## Numbers of variable length

Their bytes are consumed one at a time, so a number cut short leaves its first bytes consumed. -/

theorem fill_undelivered {n : Nat} {c c' : Cursor} (h : fill n c = .ok () c') :
    c'.undelivered = c.undelivered := by
  have hp := Source.pull_size refillChunk (n - c.buffer.length) c.source
  simp only [fill] at h
  split at h
  · simp at h
  · split at h
    · simp at h; simp [← h]
    · split at h <;> simp at h <;> simp [← h, undelivered] <;> omega

theorem need_undelivered {n : Nat} {c c' : Cursor} (h : need n c = .ok () c') :
    c'.undelivered = c.undelivered := by
  simp only [need] at h
  split at h
  · simp at h; simp [← h]
  · split at h
    · split at h
      · simp at h; subst h; exact fill_undelivered ‹_›
      · simp at h
    · simp at h

theorem byte_undelivered {b : UInt8} {c c' : Cursor} (h : byte c = .ok b c') :
    c'.undelivered < c.undelivered := by
  simp only [byte] at h
  split at h
  · have hn := need_undelivered ‹_›
    split at h
    · simp at h
      rw [← hn, ← h.2]
      simp [undelivered, *]
    · simp at h
  · simp at h

/-- The bytes of a number after those already read, which are in reverse. -/
def groupsFrom (done : Bytes) (c : Cursor) : EStateM.Result Failure Cursor Bytes :=
  match h : byte c with
  | .ok b c' =>
    have : c'.undelivered < c.undelivered := byte_undelivered h
    if Varint.continues b then groupsFrom (b :: done) c' else .ok (b :: done).reverse c'
  | .error e c' => .error e c'
termination_by c.undelivered

/-- The bytes of a number are read one by one. -/
theorem groupsFrom_eq (done : Bytes) (c : Cursor) :
    groupsFrom done c = match byte c with
      | .ok b c' => if Varint.continues b then groupsFrom (b :: done) c'
        else .ok (b :: done).reverse c'
      | .error e c' => .error e c' := by
  rw [groupsFrom]
  split <;> simp only [*]

def groups : Reading Bytes := groupsFrom []

def varint : Reading UInt32 := Varint.value <$> groups

/-- A tagged number and its tag. -/
def taggedVarint : Reading (UInt32 × Bool) := Varint.taggedValue <$> groups

end Reading

end JitDump
