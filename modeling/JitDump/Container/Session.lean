import JitDump.Cursor
import JitDump.Heap
import JitDump.Prototype

/-! # The state of a decode

A decode reads from a cursor, interns strings in a heap and keeps a stack of finished prototypes
that no parent has claimed yet, each with its nesting depth. It also notes what it came across. A
failure keeps the state, so that strings interned before it stay interned. -/

namespace JitDump.Container

/-- Something a decode came across. -/
inductive Event where
  | header (flags : UInt32) (chunk : Str)
  | pools (numbers objects upvalues : Nat)
  | record (offset length instructions objects footprint : Nat)
deriving Repr

structure Session where
  cursor : Cursor
  heap : Heap
  stack : List (Prototype × Nat)
  /-- The latest event first. -/
  events : List Event

namespace Session

def start (heap : Heap) (source : Source) : Session := ⟨.ofSource source, heap, [], []⟩

end Session

end Container

/-- An operation of a decode. -/
abbrev Decoding := Fallible Container.Session

namespace Decoding

open Container

def ofReading {α : Type} (r : Reading α) : Decoding α := fun ⟨cursor, heap, stack, events⟩ =>
  match r cursor with
  | .ok a cursor => .ok a ⟨cursor, heap, stack, events⟩
  | .error e cursor => .error e ⟨cursor, heap, stack, events⟩

instance : MonadLift Reading Decoding := ⟨ofReading⟩

def intern (text : Bytes) : Decoding Str := fun ⟨cursor, heap, stack, events⟩ =>
  let (str, heap) := heap.intern text
  .ok str ⟨cursor, heap, stack, events⟩

def note (e : Event) : Decoding Unit := fun ⟨cursor, heap, stack, events⟩ =>
  .ok () ⟨cursor, heap, stack, e :: events⟩

def push (p : Prototype) (depth : Nat) : Decoding Unit := fun ⟨cursor, heap, stack, events⟩ =>
  .ok () ⟨cursor, heap, (p, depth) :: stack, events⟩

def pop? : Decoding (Option (Prototype × Nat)) := fun ⟨cursor, heap, stack, events⟩ =>
  match stack with
  | [] => .ok none ⟨cursor, heap, [], events⟩
  | top :: stack => .ok (some top) ⟨cursor, heap, stack, events⟩

end Decoding

end JitDump
