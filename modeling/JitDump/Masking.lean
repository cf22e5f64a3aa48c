import JitDump.Bytes
import JitDump.Instruction

/-! # What a container hides, and how

Record heads are chained by exclusive or, instructions are renumbered and keyed by their index,
and string payloads are keyed by the index of each byte. Every transform stands beside its
inverse. -/

namespace JitDump

/-- The four bytes that open a record, in the clear. -/
structure RecordHead where
  frameSize : UInt8
  flags : UInt8
  paramCount : UInt8
  upvalueCount : UInt8
deriving DecidableEq, Repr

namespace RecordHead

/-- Each byte in the clear is the key of the next one. -/
def unchain (b0 b1 b2 b3 : UInt8) : RecordHead :=
  let flags := b1 ^^^ b0
  let params := b2 ^^^ flags
  ⟨b0, flags, params, b3 ^^^ params⟩

def chain (h : RecordHead) : Bytes :=
  [h.frameSize, h.flags ^^^ h.frameSize, h.paramCount ^^^ h.flags,
   h.upvalueCount ^^^ h.paramCount]

end RecordHead

namespace Instruction

/-- The canonical instruction behind the word at an index of a record; the error is the opcode
number that the table does not hold. -/
def restore (word : UInt32) (index : UInt8) : Except UInt8 Instruction :=
  let i : Instruction := ⟨word⟩
  match Opcode.canonical? i.op with
  | some op => .ok (((i.withOp op).withA (~~~i.a)).withB (i.b ^^^ index))
  | none => .error i.op

/-- The word that hides an instruction at an index of a record. An opcode that is not canonical
keeps its number, which no decoder takes. -/
def obfuscate (i : Instruction) (index : UInt8) : UInt32 :=
  let op := (Opcode.obfuscated? i.op).getD i.op
  (((i.withOp op).withA (~~~i.a)).withB (i.b ^^^ index)).raw

end Instruction

namespace Bytes

/-- Byte `i` is complemented and keyed by the low byte of `i`, which undoes itself. -/
def unmask (s : Bytes) : Bytes := s.mapIdx fun i b => ~~~(b ^^^ UInt8.ofNat i)

@[simp] theorem unmask_nil : unmask [] = [] := rfl

@[simp] theorem length_unmask (s : Bytes) : (unmask s).length = s.length := by simp [unmask]

/-- Masking and unmasking are one transform. -/
@[simp] theorem unmask_unmask (s : Bytes) : unmask (unmask s) = s := by
  apply List.ext_getElem
  · simp
  · intro i _ _
    simp only [unmask, List.getElem_mapIdx]
    generalize UInt8.ofNat i = k
    generalize s[i] = b
    rw [← UInt8.toBitVec_inj]
    ext j hj
    simp

end Bytes

end JitDump
