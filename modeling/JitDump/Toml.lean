import JitDump.Toml.Lexical
import JitDump.Toml.Value

/-! # Reading configuration documents -/

namespace JitDump.Toml

namespace Scan

open Text (Scan)
open Text.Scan

/-- Items between brackets, each behind a comma but the first; a comma may follow the last. -/
def array (item : Scan Value) : Scan (List Value) := do
  let next : Scan Value := do
    gaps
    let v ← item
    gaps
    return v
  char '['
  let items ← (do
    let first ← next
    let later ← many do
      char ','
      next
    let _ ← skipIf ','
    return first :: later) <|> return []
  gaps
  char ']'
  return items

def assignment (value : Scan Value) : Scan ((List String × String) × Value) := do
  let k ← key
  char '='
  blanks
  return (k, ← value)

/-- Adds assignments to the fields of a table. -/
def fill (fields : Fields) (assignments : List ((List String × String) × Value)) :
    Option Fields :=
  assignments.foldlM (fun fields ((path, key), v) => fields.putDotted path key v) fields

/-- Assignments between braces, on one line and without a comma behind the last. -/
def braces (value : Scan Value) : Scan Fields := do
  let next : Scan ((List String × String) × Value) := do
    let a ← assignment value
    blanks
    return a
  char '\x7b'
  let items ← (do
    let first ← next
    let later ← many do
      char ','
      next
    return first :: later) <|> return []
  blanks
  char '\x7d'
  fill [] items

/-- A value that may nest so deep. -/
def value : Nat → Scan Value
  | 0 => failure
  | depth + 1 => do
    match ← peek with
    | some '"' | some '\'' => do string; return .text
    | some '[' => if depth = 0 then failure else return .array (← array (value depth))
    | some '\x7b' =>
      if depth = 0 then failure else return .table .braces (← braces (value depth))
    | some 't' => do literal "true"; return .boolean true
    | some 'f' => do literal "false"; return .boolean false
    | _ => (do moment; return .moment) <|> do float <|> integer; return .number

/-- The header of a table, and whether it stands in double brackets. -/
def tableHeader : Scan ((List String × String) × Bool) :=
  (do
    literal "[["
    let k ← key
    literal "]]"
    return (k, true)) <|> do
    char '['
    let k ← key
    char ']'
    return (k, false)

/-- A line without an assignment or a header. -/
def emptyLine : Scan Unit := do
  blanks
  let _ ← optional comment
  newline

def assignments : Scan (List ((List String × String) × Value)) := do
  let out ← many do
    let _ ← many emptyLine
    blanks
    let a ← assignment (value maxDepth)
    lineEnd
    return a
  let _ ← many emptyLine
  blanks
  let _ ← optional comment
  return out

/-- A table with its header and its assignments. -/
structure Section where
  path : List String
  key : String
  isItem : Bool
  body : List ((List String × String) × Value)

def tableSection : Scan Section := do
  let ((path, key), isItem) ← tableHeader
  lineEnd
  return ⟨path, key, isItem, ← assignments⟩

def document : Scan (List ((List String × String) × Value) × List Section) := do
  let _ ← optional (char '\ufeff')
  let top ← assignments
  let sections ← many tableSection
  ended
  return (top, sections)

end Scan

/-- Adds a table under its header. A table may have one header only, but a table that is there
because it is the parent of others may still get its own. -/
def Scan.Section.addTo (fields : Fields) (s : Section) : Option Fields :=
  fields.under s.path s.key fun old =>
    if s.isItem then
      match old with
      | none => do some (.tables (← fill [] s.body) [])
      | some (.tables latest earlier) => do some (.tables (← fill [] s.body) (latest :: earlier))
      | some _ => none
    else
      match old with
      | none => do some (.table .header (← fill [] s.body))
      | some (.table .parent inner) => do some (.table .header (← fill inner s.body))
      | some _ => none

/-- The fields of a document; none if it is malformed. -/
def parse? (text : String) : Option Fields := do
  let ((top, sections), _) ← Scan.document.run text.toList
  sections.foldlM Scan.Section.addTo (← Scan.fill [] top)

end JitDump.Toml
