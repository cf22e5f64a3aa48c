import JitDump.Container.Record
import JitDump.Prototype.Tree

/-! # Writing containers

The container of a tree, with its numbers as short as they can be: what a decoder reads back as the
same tree. The entry instruction of a prototype is not written, for it follows from the head. -/

namespace JitDump.Container

namespace Encode

/-- A word of 64 bits, its low half first. -/
def wide (w : UInt64) : Bytes :=
  Varint.encode w.toUInt32 ++ Varint.encode (w >>> 32).toUInt32

def number : Number → Bytes
  | .int i => Varint.encodeTagged i.toUInt32 false
  | .float d => Varint.encodeTagged d.bits.toUInt32 true ++ Varint.encode (d.bits >>> 32).toUInt32

/-- A masked string behind its length, which is moved past the other kinds of value. -/
def string (s : Str) : Bytes := Varint.encodeNat (5 + s.bytes.length) ++ s.bytes.unmask

def templateValue : Template.Value → Bytes
  | .nil => [0]
  | .false => [1]
  | .true => [2]
  | .int i => 3 :: Varint.encode i.toUInt32
  | .num d => 4 :: wide d.bits
  | .str s => string s

/-- A key before its value. -/
def templatePair (item : Template.Key × Template.Value) : Bytes :=
  templateValue item.1.toValue ++ templateValue item.2

def template (t : Template) : Bytes :=
  Varint.encodeNat t.hash.size ++ Varint.encodeNat t.array.size ++
    t.array.toList.flatMap templateValue ++
    t.hash.toList.flatMap templatePair

/-- An object; a child is a reference to the latest record that no parent has claimed. -/
def object : Constant Prototype → Bytes
  | .child _ => [0]
  | .table t => 1 :: template t
  | .int64 i => 2 :: wide i.toUInt64
  | .uint64 n => 3 :: wide n
  | .complex re im => 4 :: wide re.bits ++ wide im.bits
  | .str s => string s

/-- What a record announces of its debug block. -/
def debugHeader : Option DebugInfo → Bytes
  | none => [0]
  | some d => Varint.encode d.size ++ Varint.encode d.firstLine ++ Varint.encode d.lineCount

/-- The words of instructions from an index on. -/
def words (index : Nat) : List Instruction → List UInt32
  | [] => []
  | i :: code => i.obfuscate (UInt8.ofNat index) :: words (index + 1) code

/-- What stands in a record before its objects. -/
def front (f : Flags) (p : Prototype) : Bytes :=
  let code := p.instructions.tail
  let head : RecordHead := ⟨p.frameSize, p.flags, p.paramCount, p.upvalueCount.toUInt8⟩
  head.chain ++
    Varint.encodeNat p.numbers.length ++
    Varint.encodeNat p.objects.length ++
    Varint.encodeNat code.length ++
    (if f.isStripped then [] else debugHeader p.debug) ++
    (words 0 code).flatMap f.order.bytes32 ++
    p.upvalues.flatMap f.order.bytes16 ++
    p.numbers.flatMap number

/-- The bytes of one prototype, without those of its children. -/
def record (f : Flags) (p : Prototype) : Bytes :=
  front f p ++
    p.objects.reverse.flatMap object ++
    (p.debug.map (DebugBlock.encode f.order)).getD []

/-- Bytes behind their length. -/
def framed (body : Bytes) : Bytes := Varint.encodeNat body.length ++ body

/-- Records one behind the other, each behind its length. -/
def records (f : Flags) (ps : List Prototype) : Bytes := ps.flatMap fun p => framed (record f p)

def header (f : Flags) (name : Bytes) : Bytes :=
  signature :: magic ++ Varint.encode f.bits ++ if f.isStripped then [] else framed name

end Encode

/-- The container of a tree with some flags. -/
def encode (f : Flags) (p : Prototype) : Bytes :=
  Encode.header f p.chunkName.bytes ++ Encode.records f p.postorder ++ [0]

end JitDump.Container
