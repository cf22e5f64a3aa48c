/-! # Hexadecimal numerals

They are written in lower case and read in either. -/

namespace JitDump.Hex

/-- The numeral of a number, without leading zeros. -/
def numeral (n : Nat) : String := String.ofList (Nat.toDigits 16 n)

/-- The numeral of a number, with zeros in front up to a width. -/
def padded (width n : Nat) : String :=
  let digits := Nat.toDigits 16 n
  String.ofList (List.replicate (width - digits.length) '0' ++ digits)

def isDigit (c : Char) : Bool :=
  c.isDigit || ('a' ≤ c && c ≤ 'f') || ('A' ≤ c && c ≤ 'F')

def digitValue (c : Char) : Nat :=
  if c.isDigit then c.toNat - '0'.toNat else c.toLower.toNat - 'a'.toNat + 10

end JitDump.Hex
