import JitDump.Double
import JitDump.Heap.StringTable

/-! # Values and keys of template tables

A key is a value that a table can be indexed by: anything but nil. Numbers are one kind of key, so
a double with the value of a 32-bit integer becomes that integer. -/

namespace JitDump.Template

inductive Value where
  | nil
  | false
  | true
  | int (i : Int32)
  | num (d : Double)
  | str (s : Str)
deriving Repr, Inhabited

inductive Key where
  | false
  | true
  | int (i : Int32)
  | num (d : Double)
  | str (s : Str)
deriving Repr, BEq, Hashable

namespace Value

/-- Equality of values of one kind; strings are compared as objects. -/
def same : Value → Value → Bool
  | .nil, .nil | .false, .false | .true, .true => Bool.true
  | .int i, .int j => i == j
  | .num x, .num y => x.sameValue y
  | .str s, .str t => s == t
  | _, _ => Bool.false

/-- The key that a value is as an index; nil is none. -/
def key? : Value → Option Key
  | .nil => none
  | .false => some .false
  | .true => some .true
  | .int i => some (.int i)
  | .num d => some (match d.toInt32? with
    | some i => .int i
    | none => .num d)
  | .str s => some (.str s)

@[simp] theorem key?_nil : key? .nil = none := rfl
@[simp] theorem key?_false : key? .false = some .false := rfl
@[simp] theorem key?_true : key? .true = some .true := rfl
@[simp] theorem key?_int (i : Int32) : key? (.int i) = some (.int i) := rfl
@[simp] theorem key?_str (s : Str) : key? (.str s) = some (.str s) := rfl

end Value

namespace Key

/-- The value that a key stands for. -/
def toValue : Key → Value
  | .false => .false
  | .true => .true
  | .int i => .int i
  | .num d => .num d
  | .str s => .str s

/-- The slot that a key addresses in an array part of some length. -/
def arraySlot? (length : Nat) : Key → Option Nat
  | .int i =>
    match i.toInt with
    | .ofNat n => if n < length then some n else none
    | .negSucc _ => none
  | _ => none

end Key

end JitDump.Template
