import JitDump.Template.Key
import JitDump.Template.Pairs

/-! # Template tables

A template table has a dense array part, addressed from zero, and a hash part. An integer key that
addresses the array part never enters the hash part. -/

namespace JitDump

structure Template where
  array : Array Template.Value
  hash : Pairs Template.Key Template.Value

namespace Template

def empty : Template := ⟨#[], .empty⟩

/-- Appends a value to the array part. -/
def push (t : Template) (v : Value) : Template :=
  let ⟨array, hash⟩ := t
  ⟨array.push v, hash⟩

def insert (t : Template) (k : Key) (v : Value) : Template :=
  let ⟨array, hash⟩ := t
  match k.arraySlot? array.size with
  | some i => ⟨array.setIfInBounds i v, hash⟩
  | none => ⟨array, hash.insert k v⟩

def get? (t : Template) (k : Key) : Option Value :=
  match k.arraySlot? t.array.size with
  | some i => t.array[i]?
  | none => t.hash.get? k

/-- The number of entries in both parts. -/
def size (t : Template) : Nat := t.array.size + t.hash.size

def isEmpty (t : Template) : Bool := t.size == 0

end Template

end JitDump
