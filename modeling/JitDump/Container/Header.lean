import JitDump.Container.Session

/-! # The head of a container

A container opens with four fixed bytes and a word of flags. Unless it is stripped, the name of
its chunk follows; a stripped container takes the name of its source. -/

namespace JitDump.Container

def signature : UInt8 := 0x1b

def version : UInt8 := 2

/-- The bytes behind the signature. -/
def magic : Bytes := [0x4c, 0x4a, version]

/-- What a decoder accepts. -/
structure Options where
  /-- Containers that carry constants of the foreign function interface. -/
  ffi : Bool
  /-- Prototypes that carry debug info. -/
  allowDebugInfo : Bool
deriving DecidableEq, Repr

namespace Options

def default : Options := ⟨true, false⟩

end Options

structure Flags where
  bits : UInt32
deriving DecidableEq, Repr

namespace Flags

def bigEndian : UInt32 := 0x01
def strippedBit : UInt32 := 0x02
def ffiBit : UInt32 := 0x04
/-- The frame layout of two slots, which no decoder here accepts. -/
def twoSlotFrames : UInt32 := 0x08
def known : UInt32 := bigEndian ||| strippedBit ||| ffiBit ||| twoSlotFrames

def isBigEndian (f : Flags) : Bool := f.bits &&& bigEndian != 0
def isStripped (f : Flags) : Bool := f.bits &&& strippedBit != 0
def hasFfi (f : Flags) : Bool := f.bits &&& ffiBit != 0

def order (f : Flags) : ByteOrder := if f.isBigEndian then .big else .little

/-- Whether a decoder with these options reads a container with these flags. -/
def accepted (options : Options) (f : Flags) : Bool :=
  f.bits &&& ~~~known == 0 && f.bits &&& twoSlotFrames == 0 && (!f.hasFfi || options.ffi)

end Flags

structure Header where
  flags : Flags
  chunkName : Str

open Reading in
/-- The four bytes that every container opens with. -/
def prologue : Reading Unit := do
  want (4 + 5 + 5)
  let c ← get
  if c.holds 4 then
    let found ← block 4
    if found = signature :: magic then return () else Fallible.failAt 0 (.badMagic found)
  else
    let found ← block c.remaining
    Fallible.failAt 0 (.badMagic found)

open Reading in
def flags (options : Options) : Reading Flags := do
  let start ← position
  let f : Flags := ⟨← varint⟩
  if f.accepted options then return f else Fallible.failAt start (.badFlags f.bits)

open Reading in
/-- The flags of a container, and its chunk name unless it is stripped. -/
def opening (options : Options) : Reading (Flags × Option Bytes) := do
  prologue
  let f ← flags options
  if f.isStripped then return (f, none)
  else
    let length ← varint
    return (f, some (← block length.toNat))

/-- The head of a container from a source of some name. -/
def header (options : Options) (sourceName : Bytes) : Decoding Header := do
  let (f, name?) ← opening options
  return ⟨f, ← Decoding.intern (name?.getD sourceName)⟩

end JitDump.Container
