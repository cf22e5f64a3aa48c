import JitDump.Decimal.Shortest
import JitDump.Double

/-! # How a finite double is written

With `d.ddd` times ten to the `e` as its value, a double is written in plain digits when `e` lies
in a range, always with a fraction; outside the range it has one digit in front of the point and
an exponent that always shows its sign. -/

namespace JitDump

namespace Double

/-- The magnitude of a finite double other than zero. -/
def magnitude (d : Double) : Binary :=
  ⟨d.significand, d.exponent, d.fraction == 0 && decide (1 < d.exponentField)⟩

/-- The shortest decimal that reads back as the magnitude. -/
def shortestDecimal (d : Double) : Decimal :=
  if d.isZero then ⟨0, 0⟩ else d.magnitude.shortest

end Double

namespace Decimal

/-- Which exponents are written in plain digits. -/
structure Layout where
  leastPlain : Int
  greatestPlain : Int

def zeros (n : Nat) : String := String.ofList (List.replicate n '0')

/-- Plain digits with a point that leaves `n` of them in front; at least one stands on each
side. -/
def plain (ds : List Char) (n : Int) : String :=
  if n ≤ 0 then "0." ++ zeros (-n).toNat ++ String.ofList ds
  else if ds.length ≤ n.toNat then String.ofList ds ++ zeros (n.toNat - ds.length) ++ ".0"
  else String.ofList (ds.take n.toNat) ++ "." ++ String.ofList (ds.drop n.toNat)

def scientific (ds : List Char) (e : Int) : String :=
  let lead := String.ofList (ds.take 1)
  let fraction := ds.drop 1
  let point := if fraction.isEmpty then "" else "." ++ String.ofList fraction
  let sign := if e < 0 then "-" else "+"
  lead ++ point ++ "e" ++ sign ++ toString e.natAbs

def text (style : Layout) (x : Decimal) : String :=
  let ds := Nat.toDigits 10 x.digits
  let e := x.exponent + ds.length - 1
  if style.leastPlain ≤ e ∧ e ≤ style.greatestPlain then plain ds (e + 1) else scientific ds e

end Decimal

end JitDump
