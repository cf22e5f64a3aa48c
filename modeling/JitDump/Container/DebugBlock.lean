import JitDump.Prototype

/-! # The debug block of a record

A debug block holds a line offset for each instruction, in words as wide as the number of lines
asks for, then a name for each upvalue, closed by a zero byte, then variable info to its end. -/

namespace JitDump.Container

/-- What a record announces of its debug block. -/
structure DebugHeader where
  size : UInt32
  firstLine : UInt32
  lineCount : UInt32
deriving DecidableEq, Repr

namespace DebugBlock

/-- The width of a line offset in a function of so many lines. -/
def lineWidth (lineCount : UInt32) : Nat :=
  if lineCount ≤ 0xff then 1 else if lineCount ≤ 0xffff then 2 else 4

def lines (order : ByteOrder) : Nat → Bytes → List UInt32
  | 1, block => block.map UInt8.toUInt32
  | 2, block => (order.words16 block).map UInt16.toUInt32
  | _, block => order.words32 block

/-- The first names of a block and what follows them. -/
def names? : Nat → Bytes → Option (List Bytes × Bytes)
  | 0, block => some ([], block)
  | n + 1, block =>
    match block.dropWhile (· != 0) with
    | [] => none
    | _ :: rest =>
      (names? n rest).map fun (names, rest) => (block.takeWhile (· != 0) :: names, rest)

/-- Splits a block; none when the line offsets or a name run past its end. -/
def parse? (order : ByteOrder) (header : DebugHeader) (lineEntries upvalues : Nat)
    (block : Bytes) : Option DebugInfo :=
  let width := lineWidth header.lineCount
  if Bytes.hasAtLeast block (lineEntries * width) then
    let (front, rest) := block.splitAt (lineEntries * width)
    (names? upvalues rest).map fun (names, rest) =>
      ⟨header.size, header.firstLine, header.lineCount, lines order width front, names, rest⟩
  else none

/-! ## Writing -/

def lineBytes (order : ByteOrder) : Nat → UInt32 → Bytes
  | 1, l => [l.toUInt8]
  | 2, l => order.bytes16 l.toUInt16
  | _, l => order.bytes32 l

/-- The block that splits into this debug info. -/
def encode (order : ByteOrder) (d : DebugInfo) : Bytes :=
  d.lines.flatMap (lineBytes order (lineWidth d.lineCount))
    ++ d.upvalueNames.flatMap (· ++ [0])
    ++ d.variableInfo

end DebugBlock

end JitDump.Container
