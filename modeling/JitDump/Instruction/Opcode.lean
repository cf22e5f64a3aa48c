/-! # Opcode numbering

A container numbers its opcodes in an order of its own. The table is indexed by that number and
holds the canonical opcode; it is a permutation, so it can be read backwards. -/

namespace JitDump.Opcode

/-- How many opcodes there are. -/
def count : Nat := 97

/-- The entry instruction of a function with a fixed number of arguments. -/
def fixedEntry : UInt8 := 90

/-- The entry instruction of a function with a variable number of arguments. -/
def variadicEntry : UInt8 := 93

def table : List UInt8 :=
  [12, 13, 14, 15, 16, 17, 39, 40, 41, 42, 43, 44, 77, 78, 79, 80,
   81, 82, 83, 84, 85, 86, 87, 88, 0, 1, 2, 3, 4, 5, 6, 7,
   8, 9, 10, 11, 65, 66, 67, 68, 69, 70, 71, 72, 18, 19, 20, 21,
   73, 74, 75, 76, 22, 23, 24, 25, 26, 27, 28, 29, 30, 31, 32, 33,
   34, 35, 36, 37, 38, 45, 46, 47, 48, 49, 50, 51, 52, 53, 54, 55,
   56, 57, 58, 59, 64, 60, 61, 62, 63, 96, 89, 90, 91, 92, 93, 94,
   95]

/-- The canonical opcode of a container's opcode number. -/
def canonical? (n : UInt8) : Option UInt8 := table[n.toNat]?

/-- The container's number of a canonical opcode. -/
def obfuscated? (op : UInt8) : Option UInt8 := (table.idxOf? op).map UInt8.ofNat

theorem table_length : table.length = count := rfl

end JitDump.Opcode
