import JitDump.Text.Hex

/-! # Log lines

A line has a level, a target, which is the part of the program that it comes from, a message, and
fields with values. -/

namespace JitDump.Log

inductive Level where
  | error
  | warn
  | info
  | debug
  | trace
deriving DecidableEq, Repr

namespace Level

def name : Level → String
  | .error => "ERROR"
  | .warn => "WARN"
  | .info => "INFO"
  | .debug => "DEBUG"
  | .trace => "TRACE"

/-- The least verbosity at which lines of a level are shown; nothing is shown at zero. -/
def verbosity : Level → Nat
  | .error => 1
  | .warn => 2
  | .info => 3
  | .debug => 4
  | .trace => 5

end Level

/-- A character that may steer a terminal is shown by its number. -/
def legible (c : Char) : String :=
  if c = '\x1b' ∨ c = '\x07' ∨ c = '\x08' ∨ c = '\x0c' ∨ c = '\x7f' then
    "\\x" ++ Hex.padded 2 c.toNat
  else if 0x80 ≤ c.val ∧ c.val ≤ 0x9f then "\\u\x7b" ++ Hex.numeral c.toNat ++ "\x7d"
  else String.singleton c

structure Line where
  level : Level
  target : String
  message : String
  /-- The names of the fields with their values, in the order in which they are shown. -/
  fields : List (String × String)
deriving Repr

namespace Line

/-- The message counts as a field of its own name. -/
def hasField (l : Line) (name : String) : Bool :=
  name == "message" || l.fields.any (·.1 == name)

/-- The text of a line. A message may hold words from outside and is made legible; the values of
fields are shown as they are. -/
def render (l : Line) : String :=
  l.level.name ++ " " ++ l.target ++ ": " ++ String.join (l.message.toList.map legible) ++
    String.join (l.fields.map fun (name, value) => " " ++ name ++ "=" ++ value)

end Line

end JitDump.Log
