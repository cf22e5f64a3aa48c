import JitDump.Bytes

/-! # UTF-8, strict and lossy

A byte string is cut into parts: a part is a character, or a longest start of one that its
successor does not continue. Text that must be valid admits no broken part; lossy text shows each
as the replacement character. -/

namespace JitDump.Utf8

def encode (s : String) : Bytes := s.toUTF8.toList

/-- A character of which some bytes are still owed; the next one must lie within bounds. -/
structure Begun where
  value : Nat
  owed : Nat
  low : UInt8
  high : UInt8
deriving Repr

/-- The parts found so far, in reverse, and the character that stands open behind them. -/
structure Progress where
  parts : List (Option Char)
  begun : Option Begun

namespace Progress

def start : Progress := ⟨[], none⟩

/-- Reads the first byte of a character. Four leads narrow the second byte, so that no character
has two encodings, none is a surrogate and none lies past the last code point. -/
def lead (parts : List (Option Char)) (b : UInt8) : Progress :=
  if b < 0x80 then ⟨some (.ofNat b.toNat) :: parts, none⟩
  else if b < 0xc2 then ⟨none :: parts, none⟩
  else if b < 0xe0 then ⟨parts, some ⟨b.toNat % 32, 1, 0x80, 0xbf⟩⟩
  else if b < 0xf0 then
    let low := if b = 0xe0 then 0xa0 else 0x80
    let high := if b = 0xed then 0x9f else 0xbf
    ⟨parts, some ⟨b.toNat % 16, 2, low, high⟩⟩
  else if b < 0xf5 then
    let low := if b = 0xf0 then 0x90 else 0x80
    let high := if b = 0xf4 then 0x8f else 0xbf
    ⟨parts, some ⟨b.toNat % 8, 3, low, high⟩⟩
  else ⟨none :: parts, none⟩

def step (p : Progress) (b : UInt8) : Progress :=
  match p.begun with
  | none => lead p.parts b
  | some c =>
    if c.low ≤ b ∧ b ≤ c.high then
      let value := c.value * 64 + b.toNat % 64
      if c.owed = 1 then ⟨some (.ofNat value) :: p.parts, none⟩
      else ⟨p.parts, some ⟨value, c.owed - 1, 0x80, 0xbf⟩⟩
    else lead (none :: p.parts) b

/-- The parts in order; a character left open is broken. -/
def finish (p : Progress) : List (Option Char) :=
  match p.begun with
  | none => p.parts.reverse
  | some _ => (none :: p.parts).reverse

end Progress

def parts (s : Bytes) : List (Option Char) := (s.foldl Progress.step .start).finish

/-- The text of a byte string, each broken part shown as U+FFFD. -/
def lossy (s : Bytes) : String := String.ofList ((parts s).map (·.getD '\uFFFD'))

/-- The text of a byte string that has no broken part. -/
def decode? (s : Bytes) : Option String :=
  let ps := parts s
  if ps.all Option.isSome then some (String.ofList (ps.filterMap id)) else none

end JitDump.Utf8
