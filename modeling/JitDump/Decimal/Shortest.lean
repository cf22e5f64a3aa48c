/-! # The shortest decimal that reads back

A positive binary number `m * 2 ^ q` stands for an interval of reals: those that round to it. Half
a unit above and half a unit below bound the interval, except that below a power of two the next
number is half as far away. The ends belong to it when `m` is even, because a tie rounds to even.

The shortest decimal is the point of the interval on the coarsest grid of powers of ten that meets
it; of two such points it is the one nearer to the number, and of two equally near the even one. -/

namespace JitDump

/-- The number `digits * 10 ^ exponent`. -/
structure Decimal where
  digits : Nat
  exponent : Int
deriving DecidableEq, Repr

/-- A positive binary number `m * 2 ^ q`; `closeBelow` when the next smaller one is half as far
away as the next larger one. -/
structure Binary where
  m : Nat
  q : Int
  closeBelow : Bool
deriving Repr

namespace Binary

/-- A grid of powers of ten with several points in the interval of any number of exponent `q`. -/
def finestGrid (q : Int) : Int := (q * 30103).fdiv 100000 - 1

/-- The numerator of a quarter unit `2 ^ (q - 2)`, measured on the grid `10 ^ k`. -/
def quarterNum (q k : Int) : Nat :=
  Nat.pow 2 (q - 2).toNat * Nat.pow 10 (-k).toNat

/-- The denominator of a quarter unit on the grid `10 ^ k`. -/
def quarterDen (q k : Int) : Nat :=
  Nat.pow 2 (2 - q).toNat * Nat.pow 10 k.toNat

def ceilDiv (n d : Nat) : Nat := (n + d - 1) / d

/-- The least point of the grid in the interval. -/
def leastPoint (x : Binary) (k : Int) : Nat :=
  let n := (4 * x.m - if x.closeBelow then 1 else 2) * quarterNum x.q k
  let d := quarterDen x.q k
  if x.m % 2 = 0 then ceilDiv n d else n / d + 1

/-- The greatest point of the grid in the interval. -/
def greatestPoint (x : Binary) (k : Int) : Nat :=
  let n := (4 * x.m + 2) * quarterNum x.q k
  let d := quarterDen x.q k
  if x.m % 2 = 0 then n / d else ceilDiv n d - 1

/-- How many times a grid with a point between `lo` and `hi` can be made ten times as coarse so
that a point stays between them. -/
def coarsenings (lo hi : Nat) : Nat :=
  if h : 0 < hi ∧ ceilDiv lo 10 ≤ hi / 10 then coarsenings (ceilDiv lo 10) (hi / 10) + 1 else 0
termination_by hi
decreasing_by omega

/-- The shortest decimal in the interval of a number. -/
def shortest (x : Binary) : Decimal :=
  let k := finestGrid x.q
  let lo := x.leastPoint k
  let hi := x.greatestPoint k
  let j := coarsenings lo hi
  let unit := Nat.pow 10 j
  let n := 4 * x.m * quarterNum x.q k
  let d := quarterDen x.q k
  let below := n / d / unit
  let middle := (2 * below + 1) * unit * d
  let point :=
    if below * unit < lo then below + 1
    else if hi < (below + 1) * unit then below
    else if 2 * n < middle then below
    else if middle < 2 * n then below + 1
    else below + below % 2
  ⟨point, k + j⟩

end Binary

end JitDump
