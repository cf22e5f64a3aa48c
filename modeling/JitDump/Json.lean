import JitDump.Text.Hex

/-! # JSON documents and how they are written

A document is written in one of two styles that differ only in blanks between its tokens. Numbers
are kept as their text. -/

namespace JitDump

inductive Json where
  | null
  | number (text : String)
  | string (text : String)
  | array (items : List Json)
  | object (fields : List (String × Json))

namespace Json

def nat (n : Nat) : Json := .number (toString n)

def int (i : Int) : Json := .number (toString i)

/-- The object with one field, which tags a value with its kind. -/
def tagged (tag : String) (j : Json) : Json := .object [(tag, j)]

/-! ## Strings -/

/-- How a character stands in a string: quotes, backslashes and control characters are escaped,
any other character stands for itself. -/
def escape (c : Char) : String :=
  if c = '"' then "\\\""
  else if c = '\\' then "\\\\"
  else if c = '\x08' then "\\b"
  else if c = '\x0c' then "\\f"
  else if c = '\n' then "\\n"
  else if c = '\r' then "\\r"
  else if c = '\t' then "\\t"
  else if c.val < 0x20 then "\\u" ++ Hex.padded 4 c.toNat
  else String.singleton c

/-- Appends a quoted string. -/
def quoteTo (out text : String) : String :=
  (text.foldl (fun out c => out ++ escape c) (out.push '"')).push '"'

/-! ## Styles -/

/-- The blanks of a style: those in front of an item at a depth, and those after a colon. -/
structure Style where
  newline : Nat → String
  afterColon : String

namespace Style

def compact : Style := ⟨fun _ => "", ""⟩

/-- Every item on a line of its own, two blanks deeper than what holds it. -/
def pretty : Style := ⟨fun depth => "\n" ++ String.ofList (List.replicate (2 * depth) ' '), " "⟩

end Style

mutual

/-- Appends a document that stands at a depth. -/
def renderTo (style : Style) (depth : Nat) (out : String) : Json → String
  | .null => out ++ "null"
  | .number text => out ++ text
  | .string text => quoteTo out text
  | .array [] => out ++ "[]"
  | .array (item :: items) =>
    let out := renderTo style (depth + 1) (out ++ "[" ++ style.newline (depth + 1)) item
    renderItems style (depth + 1) out items ++ style.newline depth ++ "]"
  | .object [] => out ++ "\x7b\x7d"
  | .object ((key, value) :: fields) =>
    let out := quoteTo (out ++ "\x7b" ++ style.newline (depth + 1)) key ++ ":" ++ style.afterColon
    let out := renderTo style (depth + 1) out value
    renderFields style (depth + 1) out fields ++ style.newline depth ++ "\x7d"

/-- Appends the items after the first, each behind a comma. -/
def renderItems (style : Style) (depth : Nat) (out : String) : List Json → String
  | [] => out
  | item :: items =>
    renderItems style depth (renderTo style depth (out ++ "," ++ style.newline depth) item) items

/-- Appends the fields after the first, each behind a comma. -/
def renderFields (style : Style) (depth : Nat) (out : String) : List (String × Json) → String
  | [] => out
  | (key, value) :: fields =>
    let out := quoteTo (out ++ "," ++ style.newline depth) key ++ ":" ++ style.afterColon
    renderFields style depth (renderTo style depth out value) fields

end

def render (style : Style) (j : Json) : String := renderTo style 0 "" j

def compact (j : Json) : String := render .compact j

def pretty (j : Json) : String := render .pretty j

end Json

end JitDump
