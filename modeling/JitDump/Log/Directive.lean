import JitDump.Log
import JitDump.Log.Pattern
import JitDump.Text.Alphanumeric
import JitDump.Text.Blank
import JitDump.Text.Utf8

/-! # Directives on log lines

A directive is a level, a target, or a target with a level behind an equals sign. Between the
target and the sign may stand square brackets with the name of a span and, in braces, a field. What
is asked of spans and of the values of fields is passed over, because no line is in a span.

The marks of a directive are looked for without the blanks around it, but its parts are cut at the
same distances from the start of the whole text. A blank in front thus moves every part that stands
behind a mark. -/

namespace JitDump.Log

/-- How much is shown of the lines whose target opens with a text and that have a field. -/
structure Directive where
  target : Option String
  field : Option String
  verbosity : Nat
deriving DecidableEq, Repr

namespace Directive

/-- Why a text is no directive. -/
inductive Fault where
  | malformed
  | unknownLevel
  | badPattern (fault : Pattern.Fault)
deriving DecidableEq, Repr

namespace Fault

def message : Fault → String
  | .malformed => "invalid filter directive"
  | .unknownLevel =>
    "error parsing level filter: expected one of \"off\", \"error\", \"warn\", \"info\", " ++
      "\"debug\", \"trace\", or a number 0-5"
  | .badPattern fault => "invalid field filter: " ++ fault.message

end Fault

/-! ## Levels -/

def verbosities : List (String × Nat) :=
  [("off", 0), ("error", 1), ("warn", 2), ("info", 3), ("debug", 4), ("trace", 5)]

/-- The verbosity of a numeral, which may open with a plus sign. -/
def numbered? (word : String) : Option Nat :=
  let digits := match word.toList with
    | '+' :: rest => rest
    | cs => cs
  if digits.isEmpty || !digits.all Char.isDigit then none
  else
    let n := Nat.ofDigitChars 10 digits 0
    if n ≤ Level.trace.verbosity then some n else none

/-- The verbosity of a word: a number, or a name in letters of either case. -/
def verbosity? (word : String) : Option Nat :=
  numbered? word <|> verbosities.lookup word.toLower

/-! ## Parts -/

/-- The part of a text from one byte up to another. -/
def cut (text : Bytes) (start stop : Nat) : Except Fault String :=
  match Utf8.decode? ((text.drop start).take (stop - start)) with
  | some part => .ok part
  | none => .error .malformed

/-- The level that the text from some byte on names; all is shown if nothing is there. -/
def levelAt (text : Bytes) (start : Nat) : Except Fault Nat := do
  let word ← cut text start text.length
  if word.isEmpty then .ok Level.trace.verbosity
  else
    match verbosity? word with
    | some v => .ok v
    | none => .error .unknownLevel

/-- The level behind brackets that end at some byte. -/
def levelBehind (text : Bytes) (start : Nat) : List Char → Except Fault Nat
  | [] => .ok Level.trace.verbosity
  | '=' :: _ => levelAt text (start + 1)
  | _ => .error .malformed

/-- The name of a field, unless the field is asked for by its value. -/
def fieldName? (part : String) : Except Fault (Option String) :=
  match part.splitOn "=" with
  | [name] => .ok (some name)
  | _ :: value :: _ =>
    match Pattern.check value with
    | .ok _ => .ok none
    | .error fault => .error (.badPattern fault)
  | [] => .error .malformed

/-- How many bytes characters take. -/
def size (cs : List Char) : Nat := cs.foldl (fun n c => n + c.utf8Size) 0

/-- Reads behind an opening bracket, which ends at some byte. Nothing comes of a directive on a
span by its name. -/
def bracketed (text : Bytes) (target : Option String) (start : Nat) (cs : List Char) :
    Except Fault (Option Directive) := do
  let isName (c : Char) := c != ']' && c != '\x7b'
  let name := cs.takeWhile isName
  let start := start + size name + 1
  match cs.dropWhile isName with
  | [] => .error .malformed
  | ']' :: rest => do
    let _ ← levelBehind text start rest
    .ok none
  | _ :: rest =>
    let field := rest.takeWhile (· != '\x7d')
    let stop := start + size field
    match rest.dropWhile (· != '\x7d') with
    | [] => .error .malformed
    | _ :: rest =>
      if field.isEmpty then .error .malformed
      else
        let field ← fieldName? (← cut text start stop)
        match rest with
        | ']' :: rest =>
          let verbosity ← levelBehind text (stop + 2) rest
          .ok (if name.isEmpty then field.map (⟨target, ·, verbosity⟩) else none)
        | _ => .error .malformed

def opensTarget (c : Char) : Bool := Text.isAlphanumeric c || c == '-' || c == ':' || c == '_'

/-- The directive that a text is. A target without a level shows all of its lines. -/
def parse (text : String) : Except Fault (Option Directive) :=
  let bytes := Utf8.encode text
  match Text.trim text.toList with
  | [] => .error .malformed
  | '[' :: rest => bracketed bytes none 1 rest
  | c :: rest =>
    if !opensTarget c then .error .malformed
    else
      let isTarget (c : Char) := c != '=' && c != '['
      let stop := size ((c :: rest).takeWhile isTarget)
      match (c :: rest).dropWhile isTarget with
      | [] =>
        match verbosity? text with
        | some v => .ok (some ⟨none, none, v⟩)
        | none => .ok (some ⟨some text, none, Level.trace.verbosity⟩)
      | mark :: rest => do
        let target ← cut bytes 0 stop
        if mark == '=' then .ok (some ⟨some target, none, ← levelAt bytes (stop + 1)⟩)
        else bracketed bytes (some target) (stop + 1) rest

/-! ## Lines -/

def isFor (d : Directive) (l : Line) : Bool :=
  d.target.all (·.toList.isPrefixOf l.target.toList) && d.field.all l.hasField

/-- Whether two directives are for the same lines. -/
def rivals (d e : Directive) : Bool := d.target == e.target && d.field == e.field

/-- Whether a directive comes before another that is for the same line: by a longer target, then by
a field, then by the order of the fields' names. -/
def outranks (d e : Directive) : Bool :=
  let length (d : Directive) := match d.target with
    | none => 0
    | some opening => opening.length + 1
  if length d ≠ length e then length e < length d
  else
    match d.field, e.field with
    | some f, some g => g < f
    | some _, none => true
    | none, _ => false

end Directive

end JitDump.Log
