import JitDump.Instruction.Opcode

/-! # Instructions

An instruction is one 32-bit word. From the low byte up it holds the opcode and the operands A, C
and B; operand D is C and B read as one 16-bit number. -/

namespace JitDump

structure Instruction where
  raw : UInt32
deriving DecidableEq, Repr

namespace Instruction

/-- The instruction whose every field is zero. -/
def zero : Instruction := ⟨0⟩

def ofAD (op a : UInt8) (d : UInt16) : Instruction :=
  ⟨op.toUInt32 ||| a.toUInt32 <<< 8 ||| d.toUInt32 <<< 16⟩

def ofABC (op a b c : UInt8) : Instruction :=
  ⟨op.toUInt32 ||| a.toUInt32 <<< 8 ||| c.toUInt32 <<< 16 ||| b.toUInt32 <<< 24⟩

def op (i : Instruction) : UInt8 := i.raw.toUInt8
def a (i : Instruction) : UInt8 := (i.raw >>> 8).toUInt8
def b (i : Instruction) : UInt8 := (i.raw >>> 24).toUInt8
def c (i : Instruction) : UInt8 := (i.raw >>> 16).toUInt8
def d (i : Instruction) : UInt16 := (i.raw >>> 16).toUInt16

def withOp (i : Instruction) (op : UInt8) : Instruction :=
  ⟨i.raw &&& (0xffffff00 : UInt32) ||| op.toUInt32⟩

def withA (i : Instruction) (a : UInt8) : Instruction :=
  ⟨i.raw &&& (0xffff00ff : UInt32) ||| a.toUInt32 <<< 8⟩

def withB (i : Instruction) (b : UInt8) : Instruction :=
  ⟨i.raw &&& (0x00ffffff : UInt32) ||| b.toUInt32 <<< 24⟩

/-- The text of an instruction in diagnostics. -/
def describe (i : Instruction) : String :=
  s!"Instruction \x7b op: {i.op}, a: {i.a}, b: {i.b}, c: {i.c}, d: {i.d} \x7d"

/-- The entry instruction of a function with `frame` stack slots. -/
def entry (variadic : Bool) (frame : UInt8) : Instruction :=
  ofAD (if variadic then Opcode.variadicEntry else Opcode.fixedEntry) frame 0

end Instruction

end JitDump
