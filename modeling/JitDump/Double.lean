/-! # Doubles by their bits

A double is its 64 bits. What it stands for is argued in whole numbers: a finite double is plus or
minus `significand * 2 ^ exponent`, exactly. -/

namespace JitDump

structure Double where
  bits : UInt64
deriving DecidableEq, Hashable, Repr

namespace Double

def isNegative (d : Double) : Bool := d.bits >>> 63 == 1

def exponentField (d : Double) : Nat := ((d.bits >>> 52) &&& 0x7ff).toNat

def fraction (d : Double) : Nat := (d.bits &&& 0xfffffffffffff).toNat

def isFinite (d : Double) : Bool := d.exponentField != 0x7ff

def isNaN (d : Double) : Bool := d.exponentField == 0x7ff && d.fraction != 0

/-- The NaN that arithmetic makes. -/
def canonicalNaN : Double := ⟨0x7ff8000000000000⟩

def significand (d : Double) : Nat :=
  if d.exponentField = 0 then d.fraction else Nat.pow 2 52 + d.fraction

def exponent (d : Double) : Int := (max d.exponentField 1 : Nat) - 1075

def isZero (d : Double) : Bool := d.exponentField == 0 && d.fraction == 0

/-- Equality of values: zeros are equal whatever their sign, and a NaN equals nothing. -/
def sameValue (x y : Double) : Bool :=
  !x.isNaN && !y.isNaN && (x.bits == y.bits || (x.isZero && y.isZero))

/-- The value of a double that is a whole number. -/
def toInt? (d : Double) : Option Int :=
  if d.isFinite then
    let magnitude? : Option Nat :=
      match d.exponent with
      | .ofNat e => some (d.significand * Nat.pow 2 e)
      | .negSucc e =>
        let unit := Nat.pow 2 (e + 1)
        if d.significand % unit = 0 then some (d.significand / unit) else none
    magnitude?.map fun n => if d.isNegative then -(n : Int) else n
  else none

/-- The value of a double that is a whole number of 32 bits with sign. -/
def toInt32? (d : Double) : Option Int32 :=
  d.toInt?.bind fun i =>
    if -0x80000000 ≤ i ∧ i < 0x80000000 then some (Int32.ofInt i) else none

/-- The double of the same value; every number of 32 bits has one. -/
def ofInt32 (i : Int32) : Double :=
  let n := i.toInt.natAbs
  if n = 0 then ⟨0⟩
  else
    let k := n.log2
    let sign := if i < 0 then Nat.pow 2 63 else 0
    let fraction := (n - Nat.pow 2 k) * Nat.pow 2 (52 - k)
    ⟨UInt64.ofNat (sign + (1023 + k) * Nat.pow 2 52 + fraction)⟩

end Double

end JitDump
