import JitDump.Log.Pattern.Members
import JitDump.Text.Alphanumeric

/-! # Patterns of field values

The value of a field is asked for by a number or by a regular expression. An expression has
branches between bars; a branch is a row of characters, sets in square brackets and groups in round
ones, each of which a mark behind it may repeat. Counted repetition is not supported. -/

namespace JitDump.Log

namespace Pattern

open Text (Scan)
open Text.Scan

/-- Why a text is no pattern. -/
inductive Fault where
  | malformed
  /-- The pattern asks where words begin or end, and words may hold any characters. -/
  | wordEdges
deriving DecidableEq, Repr

namespace Fault

def message : Fault → String
  | .malformed => "error building NFA"
  | .wordEdges =>
    "unsupported regex feature for DFAs: cannot build DFAs for regexes with Unicode word " ++
      "boundaries; switch to ASCII word boundaries, or heuristically enable Unicode word " ++
      "boundaries or use a different regex engine"

end Fault

/-! ## Groups -/

/-- Reads switches up to the mark that ends them: letters that turn a mode on, or off behind a
hyphen, each at most once. Tells whether there are any. -/
def switches : Reader Bool := do
  let marks ← span fun c => c != ':' && c != ')'
  ensure (marks.all "imsURux-".toList.contains && marks.eraseDups == marks)
  ensure (marks.getLast? != some '-')
  setModes ((← modes).switched (marks.takeWhile (· != '-')) (marks.dropWhile (· != '-')))
  return !marks.isEmpty

/-- Reads the name of a group, which no other group has. -/
def groupName : Reader Unit := do
  let first ← satisfy fun c => Text.isLetter c || c == '_'
  let more ← span fun c =>
    Text.isAlphanumeric c || c == '_' || c == '.' || c == '[' || c == ']'
  char '>'
  let name := String.ofList (first :: more)
  let c ← get
  ensure !c.names.contains name
  set { c with names := name :: c.names }

/-- Reads behind an opening bracket up to what the group holds. Switches that stand alone between
brackets are for all that follows, and open no group. -/
def opensGroup : Reader Bool := do
  blanks
  if ← skip (literal "?P<" <|> literal "?<") then
    groupName
    return true
  else if ← skipIf '?' then
    let any ← switches
    if ← skipIf ':' then return true
    char ')'
    ensure any
    return false
  else return true

/-! ## Expressions -/

/-- An expression, or a group in one, as far as it is read, with the modes that hold behind it. -/
structure Scope where
  side : Side
  behind : Modes
deriving Repr

def Scope.push (s : Scope) (height : Nat) : Scope := { s with side := s.side.push height }

/-- Ends an expression, which must have no open groups. -/
def finish (s : Scope) (outer : List Scope) : Reader Nat := do
  ensure outer.isEmpty
  return s.side.whole

/-- Repeats the last piece of a scope. A question mark right behind belongs to the repetition. -/
def repeated (s : Scope) : Reader Scope := do
  match s.side.row.repeatLast? with
  | none => failure
  | some row =>
    let _ ← skipIf '?'
    return { s with side := ⟨s.side.joined, row⟩ }

/-- Reads a mark or a character of its own, by its first character. -/
def sign (c : Char) : Reader Unit := do
  let m ← modes
  match c with
  | '\\' =>
    match ← escape with
    | .char _ => ensure m.allowsLiteral
    | .wordEdge => modify fun c => { c with wordEdges := c.wordEdges || m.unicode }
    | _ => return ()
  | '.' => ensure m.unicode
  | _ => ensure (c == '^' || c == '$' || m.allowsLiteral)

/-- Reads a piece that is neither a group nor a repetition, by its first character, and gives its
height. -/
def piece (c : Char) : Reader Nat := do
  if c == '\x7b' then failure
  else if c == '[' then charSet
  else
    sign c
    return 0

/-- Reads the rest of an expression inside of open groups and gives its height. Each round takes a
character, so that the text bounds their number. -/
def rest : List Char → Scope → List Scope → Reader Nat
  | [], s, outer => finish s outer
  | _ :: bound, s, outer => do
    blanks
    match ← next with
    | none => finish s outer
    | some '(' =>
      let behind ← modes
      if ← opensGroup then rest bound ⟨.empty, behind⟩ (s :: outer)
      else rest bound { s with side := ⟨s.side.joined, s.side.row.pushFixed⟩ } outer
    | some ')' =>
      match outer with
      | [] => failure
      | o :: outer =>
        setModes s.behind
        rest bound (o.push (s.side.whole + 1)) outer
    | some '|' => rest bound { s with side := s.side.branch } outer
    | some '*' => do rest bound (← repeated s) outer
    | some '+' => do rest bound (← repeated s) outer
    | some '?' => do rest bound (← repeated s) outer
    | some c => do rest bound (s.push (← piece c)) outer

/-- How deep an expression may nest. -/
def maxHeight : Nat := 250

/-- A whole expression; tells whether it asks for the edges of words. -/
def expression : Scan Bool := do
  let (height, c) ← (rest (← get) ⟨.empty, .initial⟩ []).run ⟨.initial, [], false⟩
  if height ≤ maxHeight then return c.wordEdges else failure

/-- A number with a plus sign, which no expression opens with. -/
def plusNumber : Scan Unit := do
  char '+'
  let word ← span fun c => c.isAlpha
  if ["inf", "infinity", "nan"].contains (String.ofList word).toLower then ended
  else if !word.isEmpty then failure
  else
    let whole ← span Char.isDigit
    let fraction ← (do char '.'; span Char.isDigit) <|> return []
    if whole.isEmpty && fraction.isEmpty then failure
    let _ ← optional do
      let _ ← satisfy fun c => c == 'e' || c == 'E'
      let _ ← optional (satisfy fun c => c == '+' || c == '-')
      span1 Char.isDigit
    ended

/-- Whether a text asks for the value of a field. -/
def check (text : String) : Except Fault Unit :=
  match ((do plusNumber; return false) <|> expression).run text.toList with
  | none => .error .malformed
  | some (true, _) => .error .wordEdges
  | some (false, _) => .ok ()

end Pattern

end JitDump.Log
