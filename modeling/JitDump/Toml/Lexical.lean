import JitDump.Text.Scan

/-! # Words of configuration documents

Blanks, comments, keys, strings, numbers, dates and times. Numbers and moments are checked and then
dropped, because no setting has one as its value. -/

namespace JitDump.Toml.Scan

open Text (Scan)
open Text.Scan

def isBlank (c : Char) : Bool := c == ' ' || c == '\t'

def blanks : Scan Unit := do let _ ← span isBlank

def newline : Scan Unit := literal "\n" <|> literal "\r\n"

/-- Whether a character may stand in text: a tab is the only control character that may. -/
def isText (c : Char) : Bool := c == '\t' || (0x20 ≤ c.val && c.val != 0x7f)

def comment : Scan Unit := do
  char '#'
  let _ ← span isText

/-- Blanks, comments and line ends between the items of an array. -/
def gaps : Scan Unit := do
  let _ ← many ((do let _ ← span1 isBlank) <|> newline <|> do comment; newline)

/-- What may stand behind a value or a header. -/
def lineEnd : Scan Unit := do
  blanks
  let _ ← optional comment
  newline <|> ended

/-! ## Strings -/

def escape : Scan Char := do
  match ← satisfy fun _ => true with
  | 'b' => return '\x08'
  | 't' => return '\t'
  | 'n' => return '\n'
  | 'f' => return '\x0c'
  | 'r' => return '\r'
  | '"' => return '"'
  | '\\' => return '\\'
  | 'u' => codePoint 4
  | 'U' => codePoint 8
  | _ => failure

def basicString : Scan String := do
  char '"'
  let cs ← many ((do char '\\'; escape) <|> satisfy fun c => isText c && c != '"' && c != '\\')
  char '"'
  return String.ofList cs

def literalString : Scan String := do
  char '\''
  let cs ← span fun c => isText c && c != '\''
  char '\''
  return String.ofList cs

/-- A string between marks of three quotes. One or two quotes may stand inside it, also in front
of the closing mark. -/
def longString (quote : Char) (item : Scan Unit) : Scan Unit := do
  let mark := String.ofList [quote, quote, quote]
  literal mark
  let _ ← optional newline
  let _ ← many do
    let quotes ← span (· == quote)
    if quotes.length < 3 then item else failure
  let quotes ← span (· == quote)
  if 3 ≤ quotes.length && quotes.length ≤ 5 then return () else failure

/-- A backslash at the end of a line, with the blanks and line ends behind it. -/
def lineContinuation : Scan Unit := do
  char '\\'
  blanks
  newline
  let _ ← many ((do let _ ← span1 isBlank) <|> newline)

def longBasicString : Scan Unit :=
  longString '"' (lineContinuation <|> (do char '\\'; let _ ← escape) <|> newline <|>
    do let _ ← satisfy fun c => isText c && c != '"' && c != '\\')

def longLiteralString : Scan Unit :=
  longString '\'' (newline <|> do let _ ← satisfy fun c => isText c && c != '\'')

def string : Scan Unit :=
  longBasicString <|> longLiteralString <|> (do let _ ← basicString) <|> do let _ ← literalString

/-! ## Keys -/

def isBare (c : Char) : Bool :=
  c.isAlphanum || c == '-' || c == '_'

def simpleKey : Scan String := do
  match ← peek with
  | some '"' => basicString
  | some '\'' => literalString
  | _ => String.ofList <$> span1 isBare

/-- How deep keys, arrays and tables in braces may nest. -/
def maxDepth : Nat := 80

/-- A dotted key: what stands in front of its last part, and that part. -/
def key : Scan (List String × String) := do
  blanks
  let first ← simpleKey
  let later ← many do
    blanks
    char '.'
    blanks
    simpleKey
  blanks
  let parts := first :: later
  if parts.length < maxDepth then return (parts.dropLast, later.getLast?.getD first)
  else failure

/-! ## Numbers -/

/-- Digits in groups with a single underscore between them. -/
def digits (p : Char → Bool) : Scan (List Char) := do
  let first ← span1 p
  let later ← many do
    char '_'
    span1 p
  return first ++ later.flatten

def isOctal (c : Char) : Bool := '0' ≤ c && c ≤ '7'

def isBinary (c : Char) : Bool := c == '0' || c == '1'

/-- Digits in front of a point: a zero stands alone. -/
def wholeDigits : Scan (List Char) := do
  let ds ← digits Char.isDigit
  if ds.head? == some '0' && ds.length != 1 then failure else return ds

def valueIn (base : Nat) (ds : List Char) : Nat :=
  ds.foldl (fun n c => base * n + Hex.digitValue c) 0

def sign : Scan Bool := do
  if ← skipIf '-' then return true
  let _ ← skipIf '+'
  return false

/-- A whole number, which has 64 bits with its sign. -/
def integer : Scan Unit := do
  let based (mark : String) (base : Nat) (p : Char → Bool) : Scan Unit := do
    literal mark
    let n := valueIn base (← digits p)
    if n < Nat.pow 2 63 then return () else failure
  let decimal : Scan Unit := do
    let negative ← sign
    let n := valueIn 10 (← wholeDigits)
    if n < Nat.pow 2 63 || (negative && n == Nat.pow 2 63) then return () else failure
  based "0x" 16 Hex.isDigit <|> based "0o" 8 isOctal <|> based "0b" 2 isBinary <|> decimal

/-- The least number that a double can only round to infinity. -/
def overflow : Nat := Nat.pow 2 1024 - Nat.pow 2 970

/-- Whether `ds * 10 ^ e` rounds to infinity. -/
def overflows (ds : List Char) (e : Int) : Bool :=
  let ds := ds.dropWhile (· == '0')
  let size := (ds.length : Int) + e
  if ds.isEmpty || size < 300 then false
  else if 320 < size then true
  else overflow * Nat.pow 10 (-e).toNat ≤ valueIn 10 ds * Nat.pow 10 e.toNat

/-- A number with a fraction or an exponent, or a named one. A positive one must be finite. -/
def float : Scan Unit := do
  let negative ← sign
  let named : Scan Unit := literal "inf" <|> literal "nan"
  let written : Scan Unit := do
    let whole ← wholeDigits
    let fraction ← optional do
      char '.'
      digits Char.isDigit
    let power ← optional do
      let _ ← satisfy fun c => c == 'e' || c == 'E'
      let down ← sign
      let n := valueIn 10 (← digits Char.isDigit)
      return if down then -(n : Int) else n
    if fraction.isNone && power.isNone then failure
    let places := fraction.getD []
    if !negative && overflows (whole ++ places) (power.getD 0 - places.length) then failure
  named <|> written

/-! ## Dates and times -/

def number (width : Nat) : Scan Nat := valueIn 10 <$> exactly width Char.isDigit

def numberIn (low high : Nat) : Scan Unit := do
  let n ← number 2
  if low ≤ n && n ≤ high then return () else failure

def isLeap (year : Nat) : Bool := year % 4 == 0 && (year % 100 != 0 || year % 400 == 0)

def daysIn (year month : Nat) : Nat :=
  if month = 2 then if isLeap year then 29 else 28
  else if month = 4 || month = 6 || month = 9 || month = 11 then 30
  else 31

def date : Scan Unit := do
  let year ← number 4
  char '-'
  let month ← number 2
  char '-'
  if 1 ≤ month && month ≤ 12 then numberIn 1 (daysIn year month) else failure

def time : Scan Unit := do
  numberIn 0 23
  char ':'
  numberIn 0 59
  char ':'
  numberIn 0 60
  let _ ← optional do
    char '.'
    span1 Char.isDigit

def offset : Scan Unit :=
  (do let _ ← satisfy fun c => c == 'Z' || c == 'z') <|> do
    let _ ← satisfy fun c => c == '+' || c == '-'
    numberIn 0 23
    char ':'
    numberIn 0 59

def moment : Scan Unit :=
  (do
    date
    let _ ← optional do
      let _ ← satisfy fun c => c == 'T' || c == 't' || c == ' '
      time
      optional offset) <|> time

end JitDump.Toml.Scan
