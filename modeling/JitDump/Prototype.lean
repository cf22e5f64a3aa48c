import JitDump.Instruction
import JitDump.Template

/-! # Function prototypes

A prototype owns its children through its pool of objects, so a container decodes to a tree. -/

namespace JitDump

/-- A number of a prototype's pool. -/
inductive Number where
  | int (i : Int32)
  | float (d : Double)
deriving Repr

namespace Number

def toDouble : Number → Double
  | .int i => .ofInt32 i
  | .float d => d

end Number

/-- What a container keeps of the names and lines of a function. -/
structure DebugInfo where
  /-- The size of the block in bytes. -/
  size : UInt32
  firstLine : UInt32
  lineCount : UInt32
  /-- A line offset for each instruction but the entry. -/
  lines : List UInt32
  upvalueNames : List Bytes
  /-- What follows the names, kept as it is. -/
  variableInfo : Bytes
deriving Repr

namespace DebugInfo

def empty : DebugInfo := ⟨0, 0, 0, [], [], []⟩

end DebugInfo

/-- An object of a prototype's pool, over the type of its children. -/
inductive Constant (child : Type) where
  | str (s : Str)
  | table (t : Template)
  | child (p : child)
  | int64 (i : Int64)
  | uint64 (n : UInt64)
  | complex (re im : Double)

namespace Constant

def child? {child : Type} : Constant child → Option child
  | .child p => some p
  | _ => none

end Constant

structure Prototype where
  flags : UInt8
  paramCount : UInt8
  frameSize : UInt8
  upvalueCount : UInt16
  /-- The first is the entry instruction, which no container stores. -/
  instructions : List Instruction
  upvalues : List UInt16
  numbers : List Number
  /-- In the order in which instructions address them. -/
  objects : List (Constant Prototype)
  debug : Option DebugInfo
  chunkName : Str

namespace Prototype

/-! ## Flags -/

def childFlag : UInt8 := 0x01
def variadicFlag : UInt8 := 0x02
def ffiFlag : UInt8 := 0x04
def noJitFlag : UInt8 := 0x08
def interpretedLoopFlag : UInt8 := 0x10

/-- Whether every bit of `flag` is set. -/
def hasFlag (flags flag : UInt8) : Bool := flags &&& flag == flag

def isVariadic (p : Prototype) : Bool := hasFlag p.flags variadicFlag

def children (p : Prototype) : List Prototype := p.objects.filterMap Constant.child?

/-! ## Footprint

A host lays a prototype out in one block: head, instructions and object references up to a
multiple of eight, then numbers, upvalue descriptors in pairs, and the debug block. -/

def headSize : Nat := 72

def roundUp (n unit : Nat) : Nat := (n + unit - 1) / unit * unit

def footprint (p : Prototype) : Nat :=
  roundUp (headSize + 4 * p.instructions.length + 4 * p.objects.length) 8
    + 8 * p.numbers.length
    + 2 * roundUp p.upvalues.length 2
    + (p.debug.map (·.size.toNat)).getD 0

end Prototype

end JitDump
