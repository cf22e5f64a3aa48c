import JitDump.Log.Pattern.Height
import JitDump.Log.Pattern.Reader

/-! # Character sets in patterns

A set stands in square brackets. It holds characters, ranges of them, classes and further sets, and
two marks of one kind join what stands in front of them to what follows. -/

namespace JitDump.Log.Pattern

open Text (Scan)
open Text.Scan

def classNames : List String :=
  ["alnum", "alpha", "ascii", "blank", "cntrl", "digit", "graph", "lower", "print", "punct",
    "space", "upper", "word", "xdigit"]

/-- A class such as `[:alpha:]`, behind its opening bracket; tells whether it is negated. -/
def namedClass : Scan Bool := do
  char ':'
  let negated ← skipIf '^'
  let name ← span (· != ':')
  literal ":]"
  if classNames.contains (String.ofList name) then return negated else failure

/-- Takes a character into a set. -/
def member (c : Char) : Reader Unit := do ensure ((← modes).allowsMember c)

/-- A character, or nothing for a class. -/
def item : Reader (Option Char) := do
  if ← skipIf '\\' then
    match ← escape with
    | .char c => return some c
    | .asciiClass => return none
    | _ => failure
  else some <$> satisfy fun _ => true

/-- Whether a hyphen in front of a text makes a range. It does not in front of a closing bracket or
of another hyphen; the sign that opens a comment is passed over, but not the comment. -/
def makesRange (m : Modes) (behind : List Char) : Bool :=
  let isPassed (c : Char) := m.spaced && Text.isBlank c
  let seen := match behind.dropWhile isPassed with
    | '#' :: more => if m.spaced then more.dropWhile isPassed else '#' :: more
    | more => more
  seen.head? != some ']' && seen.head? != some '-'

/-- A character, the characters from one to another, or a class. -/
def items : Reader Unit := do
  let first ← item
  blanks
  match ← getThe (List Char) with
  | '-' :: behind =>
    if makesRange (← modes) behind then
      char '-'
      blanks
      match first, ← item with
      | some a, some b =>
        ensure (a ≤ b)
        member a
        member b
      | _, _ => failure
    else first.forM member
  | _ => first.forM member

/-- What stands first in a set and negates it. A negated set has characters beyond ASCII. -/
def negation : Reader Unit := do
  blanks
  if ← skipIf '^' then ensure (← modes).unicode

/-- Reads a sign that stands for itself in front of the others in a set: a hyphen or, where nothing
precedes it, a closing bracket. -/
def frontSign (s : Side) : Reader (Option Char) := do
  if ← skipIf '-' then return some '-'
  else if s.row.count ≠ 0 then return none
  else if ← skipIf ']' then return some ']'
  else return none

/-- Reads the rest of a set inside of others and gives the height of the outermost. Each round takes
a character, so that the text bounds their number. -/
def setRest : List Char → Bool → Side → List Side → Reader Nat
  | [], _, _, _ => failure
  | _ :: bound, inFront, s, outer => do
    blanks
    match ← if inFront then frontSign s else pure none with
    | some c =>
      member c
      setRest bound (c == '-') (s.push 0) outer
    | none =>
      if ← skipIf ']' then
        match outer with
        | [] => return s.whole + 1
        | o :: outer => setRest bound false (o.push (s.whole + 1)) outer
      else if ← skipIf '[' then
        match ← optional (namedClass : Scan Bool) with
        | some negated =>
          let m ← modes
          ensure (if m.unicode then !m.anyCase else !negated)
          setRest bound false (s.push 0) outer
        | none =>
          negation
          setRest bound true .empty (s :: outer)
      else if ← skip (literal "&&" <|> literal "--" <|> literal "~~") then
        setRest bound false s.operator outer
      else
        items
        setRest bound false (s.push 0) outer

/-- A set behind its opening bracket, by its height. -/
def charSet : Reader Nat := do
  negation
  setRest (← getThe (List Char)) true .empty []

end JitDump.Log.Pattern
