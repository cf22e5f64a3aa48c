/-! # Sets of characters -/

namespace JitDump.Text

/-- The characters in some ranges, each from its first to its last code point. -/
structure CharSet where
  ranges : List (Nat × Nat)

namespace CharSet

def contains (s : CharSet) (c : Char) : Bool :=
  s.ranges.any fun (first, last) => first ≤ c.toNat && c.toNat ≤ last

end CharSet

end JitDump.Text
