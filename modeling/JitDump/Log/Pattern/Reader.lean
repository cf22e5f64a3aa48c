import JitDump.Text.Blank
import JitDump.Text.Scan

/-! # Reading patterns

How a pattern is read depends on modes, which switches inside of it turn on and off. Modes also
decide what is supported. Characters count as themselves or, in the mode of any case, as all their
forms; for that there are tables for ASCII only, and so there are for the classes by a letter. A
pattern without the mode for all characters must still match whole characters. -/

namespace JitDump.Log.Pattern

open Text (Scan)
open Text.Scan

structure Modes where
  /-- Blanks and comments may stand between the marks of a pattern. -/
  spaced : Bool
  /-- The pattern is about all characters and not only about those of ASCII. -/
  unicode : Bool
  anyCase : Bool
deriving DecidableEq, Repr

namespace Modes

def initial : Modes := ⟨false, true, false⟩

/-- The modes behind switches that turn some on and some off. -/
def switched (m : Modes) (on off : List Char) : Modes :=
  let switch (mark : Char) (before : Bool) := (before || on.contains mark) && !off.contains mark
  ⟨switch 'x' m.spaced, switch 'u' m.unicode, switch 'i' m.anyCase⟩

/-- Whether a character may stand for itself. -/
def allowsLiteral (m : Modes) : Bool := !(m.unicode && m.anyCase)

/-- Whether a character may be in a set. -/
def allowsMember (m : Modes) (c : Char) : Bool := if m.unicode then !m.anyCase else c.val < 0x80

end Modes

/-- What is known beside the text that is left. -/
structure Context where
  modes : Modes
  /-- The names that groups have so far. -/
  names : List String
  /-- Whether words are asked for that may hold any characters. -/
  wordEdges : Bool
deriving Repr

abbrev Reader := StateT Context Scan

def modes : Reader Modes := do return (← get).modes

def setModes (m : Modes) : Reader Unit := modify fun c => { c with modes := m }

/-- Fails unless something holds. -/
def ensure (condition : Bool) : Reader Unit := if condition then return () else failure

/-- Passes over blanks and comments if they may stand here. A comment ends with its line. -/
def blanks : Reader Unit := do
  if (← modes).spaced then
    let _ ← many ((do let _ ← span1 Text.isBlank) <|> do char '#'; let _ ← span (· != '\n'))

/-! ## Escapes -/

/-- What an escape stands for. -/
inductive Escape where
  | char (c : Char)
  | textEdge
  | wordEdge
  /-- A class of ASCII characters. -/
  | asciiClass
deriving DecidableEq, Repr

/-- The number in so many hexadecimal digits, of which some are read already. -/
def hexNumber : Nat → Nat → Reader Nat
  | 0, value => return value
  | digits + 1, value => do
    blanks
    let c ← satisfy Hex.isDigit
    hexNumber digits (16 * value + Hex.digitValue c)

/-- The character whose code point stands in so many hexadecimal digits. -/
def hexChar (digits : Nat) : Reader Char := do
  let n ← hexNumber digits 0
  if h : n.isValidChar then return .ofNatAux n h else failure

/-- Reads what stands behind a backslash. -/
def escape : Reader Escape := do
  let m ← modes
  match ← next with
  | some 'x' =>
    let c ← hexChar 2
    ensure (m.unicode || c.val < 0x80)
    return .char c
  | some 'u' => .char <$> hexChar 4
  | some 'U' => .char <$> hexChar 8
  | some 'a' => return .char '\x07'
  | some 'f' => return .char '\x0c'
  | some 't' => return .char '\t'
  | some 'n' => return .char '\n'
  | some 'r' => return .char '\r'
  | some 'v' => return .char '\x0b'
  | some c =>
    if c == 'A' || c == 'z' then return .textEdge
    else if c == 'b' || c == 'B' || c == '<' || c == '>' then return .wordEdge
    else if c == 'd' || c == 's' || c == 'w' then
      ensure !m.unicode
      return .asciiClass
    else
      ensure (!c.isAlphanum && c.val < 0x80)
      return .char c
  | none => failure

end JitDump.Log.Pattern
