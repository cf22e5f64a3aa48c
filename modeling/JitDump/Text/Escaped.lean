import JitDump.Text.Hex
import JitDump.Text.Invisible

/-! # Text in diagnostics

A text is quoted. Marks that would end it or that move the pen are escaped by a letter, and
characters without a shape by their number. -/

namespace JitDump.Text

def escaped (c : Char) : String :=
  if c = '\x00' then "\\0"
  else if c = '\t' then "\\t"
  else if c = '\r' then "\\r"
  else if c = '\n' then "\\n"
  else if c = '\\' then "\\\\"
  else if c = '"' then "\\\""
  else if isInvisible c then "\\u\x7b" ++ Hex.numeral c.toNat ++ "\x7d"
  else String.singleton c

def quoted (text : String) : String :=
  (text.foldl (fun out c => out ++ escaped c) "\"").push '"'

end JitDump.Text
