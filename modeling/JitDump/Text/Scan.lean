import JitDump.Text.Hex

/-! # Scanning text

A scanner takes characters off the front of a text, or fails. After a failure another scanner may
be tried on the same text. -/

namespace JitDump.Text

abbrev Scan := StateT (List Char) Option

namespace Scan

/-- The next character, left in place. -/
def peek : Scan (Option Char) := fun s => some (s.head?, s)

/-- The next character, if there is one. -/
def next : Scan (Option Char) := fun s => some (s.head?, s.tail)

def satisfy (p : Char → Bool) : Scan Char := fun s =>
  match s with
  | c :: rest => if p c then some (c, rest) else none
  | [] => none

def char (c : Char) : Scan Unit := do let _ ← satisfy (· == c)

def literal (text : String) : Scan Unit := fun s =>
  if text.toList.isPrefixOf s then some ((), s.drop text.length) else none

/-- The longest front of characters of a kind. -/
def span (p : Char → Bool) : Scan (List Char) := fun s => some (s.takeWhile p, s.dropWhile p)

/-- A front of at least one character of a kind. -/
def span1 (p : Char → Bool) : Scan (List Char) := do
  let cs ← span p
  if cs.isEmpty then failure else return cs

def ended : Scan Unit := fun s => if s.isEmpty then some ((), s) else none

/-- Whether something comes next; if so it is passed over. -/
def skip (p : Scan Unit) : Scan Bool := (do p; return true) <|> return false

def skipIf (c : Char) : Scan Bool := skip (char c)

/-- As many as follow one another, but no more than a list has items. -/
def manyWithin {α : Type} (p : Scan α) : List Char → Scan (List α)
  | [] => return []
  | _ :: bound => (do
      let a ← p
      let more ← manyWithin p bound
      return a :: more) <|> return []

/-- As many as follow one another; each takes at least a character. -/
def many {α : Type} (p : Scan α) : Scan (List α) := fun s => manyWithin p s s

/-- Exactly `n` characters of a kind. -/
def exactly (n : Nat) (p : Char → Bool) : Scan (List Char) := fun s =>
  let front := s.take n
  if front.length == n && front.all p then some (front, s.drop n) else none

/-- The character whose code point stands in so many hexadecimal digits. -/
def codePoint (digits : Nat) : Scan Char := do
  let n := (← exactly digits Hex.isDigit).foldl (fun n c => 16 * n + Hex.digitValue c) 0
  if h : n.isValidChar then return .ofNatAux n h else failure

end Scan

end JitDump.Text
