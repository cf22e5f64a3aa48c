import JitDump.Heap.Hash

/-! # Interned strings

Equal byte strings are one object. An object is known by its number: the empty string is object 0,
and any other string has the number of strings interned when it was new. Objects are compared by
that number alone.

The table is an open hash with `mask + 1` buckets, each a chain of objects. A new object goes to
the head of its chain, and the table doubles as soon as it holds more objects than `mask`. -/

namespace JitDump

/-- A string object. -/
structure Str where
  id : Nat
  hash : UInt32
  bytes : Bytes
deriving Repr

namespace Str

instance : BEq Str := ⟨fun s t => s.id == t.id⟩

instance : Hashable Str := ⟨fun s => Hashable.hash s.id⟩

/-- The one empty string. -/
def empty : Str := ⟨0, 0, []⟩

instance : Inhabited Str := ⟨empty⟩

theorem beq_eq (s t : Str) : (s == t) = (s.id == t.id) := rfl

end Str

/-- Whether a collector will reclaim an object at the end of the current cycle. -/
inductive Liveness where
  | live
  | condemned
deriving DecidableEq, Repr

namespace Liveness

def name : Liveness → String
  | .live => "Live"
  | .condemned => "Condemned"

/-- The text of an object header in diagnostics. -/
def describe (l : Liveness) : String := s!"GcHeader \x7b liveness: {l.name} \x7d"

end Liveness

namespace Heap

/-- An object of the table with its liveness. -/
structure Entry where
  str : Str
  liveness : Liveness
deriving Repr

/-- The table stops doubling at this many buckets. -/
def maxBuckets : Nat := Nat.pow 2 26

structure StringTable where
  buckets : Array (List Entry)
  mask : UInt32
  count : Nat
  /-- The liveness of the empty string, which is never in a bucket. -/
  empty : Liveness

namespace StringTable

/-- A table with at least `mask + 1` buckets, in a power of two. -/
def ofMask (mask : UInt32) : StringTable :=
  let n := min (mask.toNat + 1).nextPowerOfTwo maxBuckets
  ⟨Array.replicate n [], UInt32.ofNat (n - 1), 0, .live⟩

def isEmpty (t : StringTable) : Bool := t.count == 0

def slot (mask hash : UInt32) : Nat := (hash &&& mask).toNat

def chain (t : StringTable) (hash : UInt32) : List Entry := t.buckets.getD (slot t.mask hash) []

/-- Every entry, by buckets in order and along each chain from its head. -/
def entries (t : StringTable) : List Entry := t.buckets.toList.flatten

def find? (t : StringTable) (s : Bytes) (hash : UInt32) : Option Entry :=
  (t.chain hash).find? fun e => e.str.hash == hash && e.str.bytes == s

/-- The object of a byte string, if it has one. Nothing is inserted and nothing comes back to
life. -/
def lookup? (t : StringTable) (s : Bytes) : Option Str :=
  if s.isEmpty then some .empty else (t.find? s (hashBytes s)).map (·.str)

def contains (t : StringTable) (s : Bytes) : Bool :=
  s.isEmpty || (t.find? s (hashBytes s)).isSome

/-- The liveness of an object of this table. -/
def liveness (t : StringTable) (s : Str) : Liveness :=
  if s == .empty then t.empty
  else match (t.chain s.hash).find? (·.str == s) with
    | some e => e.liveness
    | none => .live

def mark (t : StringTable) (s : Str) (l : Liveness) : StringTable :=
  if s == .empty then { t with empty := l }
  else { t with
    buckets := t.buckets.modify (slot t.mask s.hash)
      (List.map fun e => if e.str == s then { e with liveness := l } else e) }

def condemnAll (t : StringTable) : StringTable :=
  { t with buckets := t.buckets.map (List.map ({ · with liveness := .condemned })) }

/-- Puts an entry at the head of its chain. -/
def link (mask : UInt32) (buckets : Array (List Entry)) (e : Entry) : Array (List Entry) :=
  buckets.modify (slot mask e.str.hash) (e :: ·)

/-- The chains under a new mask: old buckets in order, each chain from its head. -/
def rehash (mask : UInt32) (buckets : Array (List Entry)) : Array (List Entry) :=
  buckets.foldl (fun new chain => chain.foldl (link mask) new)
    (Array.replicate (mask.toNat + 1) [])

def resize (t : StringTable) (mask : UInt32) : StringTable :=
  if maxBuckets - 1 ≤ mask.toNat then t
  else { t with buckets := rehash mask t.buckets, mask := mask }

/-- Doubles a table that holds more objects than its mask. -/
def grow (t : StringTable) : StringTable :=
  if t.mask.toNat < t.count then t.resize ((t.mask <<< 1) + 1) else t

def insert (t : StringTable) (s : Str) : StringTable :=
  { t with buckets := link t.mask t.buckets ⟨s, .live⟩, count := t.count + 1 }

/-- The object of a byte string, made if it is new and live in any case. -/
def intern (t : StringTable) (s : Bytes) : Str × StringTable :=
  if s.isEmpty then (.empty, t)
  else
    let hash := hashBytes s
    match t.find? s hash with
    | some ⟨str, .live⟩ => (str, t)
    | some ⟨str, .condemned⟩ => (str, t.mark str .live)
    | none =>
      let str : Str := ⟨t.count + 1, hash, s⟩
      (str, (t.insert str).grow)

/-! ## Visiting every object -/

/-- A visit of the objects: what is left of a chain, and the buckets behind it. -/
structure Visit where
  node : List Entry
  buckets : List (List Entry)

def iter (t : StringTable) : Visit := ⟨[], t.buckets.toList⟩

namespace Visit

/-- The first object of a chain, or else of the first bucket that is not empty. -/
def advance : List Entry → List (List Entry) → Option (Str × Visit)
  | e :: node, buckets => some (e.str, ⟨node, buckets⟩)
  | [], [] => none
  | [], chain :: buckets => advance chain buckets

def next? (v : Visit) : Option (Str × Visit) := advance v.node v.buckets

/-- The entries that are still to come. -/
def ahead (v : Visit) : List Entry := v.node ++ v.buckets.flatten

theorem advance_eq (node : List Entry) (buckets : List (List Entry)) :
    (advance node buckets).map (fun r => r.1 :: r.2.ahead.map (·.str)) =
      if (Visit.mk node buckets).ahead = [] then none
      else some ((Visit.mk node buckets).ahead.map (·.str)) := by
  induction buckets generalizing node with
  | nil => cases node <;> simp [advance, ahead]
  | cons chain buckets ih =>
    cases node with
    | nil => exact ih chain
    | cons e node => simp [advance, ahead]

/-- A step of a visit takes the first of the entries that are to come. -/
theorem ahead_of_next? {v v' : Visit} {s : Str} (h : v.next? = some (s, v')) :
    v.ahead.map (·.str) = s :: v'.ahead.map (·.str) := by
  have heq := advance_eq v.node v.buckets
  rw [← next?, h, Option.map_some] at heq
  split at heq
  · cases heq
  · exact (Option.some.inj heq).symm

theorem length_ahead_lt {v v' : Visit} {s : Str} (h : v.next? = some (s, v')) :
    v'.ahead.length < v.ahead.length := by
  have hl := congrArg List.length (ahead_of_next? h)
  simp only [List.length_map, List.length_cons] at hl
  omega

/-- All that a visit comes to, in order. -/
def visited (v : Visit) : List Str :=
  match _h : v.next? with
  | none => []
  | some (s, v') => s :: v'.visited
termination_by v.ahead.length
decreasing_by exact length_ahead_lt _h

end Visit

/-- The text of a table in diagnostics. -/
def describe (t : StringTable) : String :=
  s!"StringTable \x7b mask: {t.mask}, count: {t.count} \x7d"

end StringTable

end Heap

end JitDump
