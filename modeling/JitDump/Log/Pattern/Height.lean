/-! # How deep a pattern nests

The height of a piece is the length of the longest way down through the pieces that it is made of.
Characters and marks have height zero. A repetition, a group, a set and whatever else holds pieces
stands one above the highest of them, but a row of one piece is that piece. -/

namespace JitDump.Log.Pattern

/-- The pieces that stand side by side, up to some place. -/
structure Row where
  count : Nat
  height : Nat
  /-- The height of the last piece, if it may be repeated. -/
  last : Option Nat
deriving DecidableEq, Repr

namespace Row

def empty : Row := ⟨0, 0, none⟩

def push (r : Row) (height : Nat) : Row := ⟨r.count + 1, max r.height height, some height⟩

/-- Adds a piece that takes no characters and cannot be repeated. -/
def pushFixed (r : Row) : Row := ⟨r.count + 1, r.height, none⟩

/-- Puts a repetition in place of the last piece. -/
def repeatLast? (r : Row) : Option Row :=
  r.last.map fun h => ⟨r.count, max r.height (h + 1), some (h + 1)⟩

/-- The height of a row as a piece. -/
def whole (r : Row) : Nat := if r.count ≤ 1 then r.height else r.height + 1

end Row

/-- Pieces between two marks or at one end, with the height of what the mark in front of them joins
them to. -/
structure Side where
  joined : Option Nat
  row : Row
deriving DecidableEq, Repr

namespace Side

def empty : Side := ⟨none, .empty⟩

def push (s : Side) (height : Nat) : Side := ⟨s.joined, s.row.push height⟩

/-- The height of all that is joined. -/
def whole (s : Side) : Nat :=
  match s.joined with
  | none => s.row.whole
  | some h => max h s.row.whole + 1

/-- Goes on behind a bar: branches lie side by side, however many there are. -/
def branch (s : Side) : Side := ⟨some (max (s.joined.getD 0) s.row.whole), .empty⟩

/-- Goes on behind an operator, which joins all that stands in front of it to what follows. -/
def operator (s : Side) : Side := ⟨some s.whole, .empty⟩

end Side

end JitDump.Log.Pattern
