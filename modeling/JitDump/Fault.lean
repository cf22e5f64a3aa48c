import JitDump.Bytes
import JitDump.Text.Hex

/-! # What can go wrong in a decode -/

namespace JitDump

/-- The cause of a failure, with what the stream holds there. -/
inductive Fault where
  | badMagic (found : Bytes)
  | badFlags (flags : UInt32)
  | truncatedInput
  | lengthMismatch (expected actual : Nat)
  | unexpectedDebugInfo
  | stackUnderflow
  | nestingTooDeep (levels : Nat)
  | invalidKey
  | trailingData
  | badOpcode (op : UInt8)
  | bufferLimit (n : Nat)
  | io (cause : String)
deriving DecidableEq, Repr

namespace Fault

def message : Fault → String
  | .badMagic found =>
      "bad signature [" ++ ", ".intercalate (found.map fun b => Hex.padded 2 b.toNat) ++ "]"
  | .badFlags flags => "unsupported container flags 0x" ++ Hex.numeral flags.toNat
  | .truncatedInput => "truncated input"
  | .lengthMismatch expected actual =>
      s!"prototype length mismatch: declared {expected}, consumed {actual}"
  | .unexpectedDebugInfo => "unexpected debug info"
  | .stackUnderflow => "child prototype reference without a decoded prototype"
  | .nestingTooDeep levels => s!"prototypes nested {levels} levels deep"
  | .invalidKey => "nil template table key"
  | .trailingData => "trailing data after container end"
  | .badOpcode op => s!"bad opcode {op}"
  | .bufferLimit n => s!"read of {n} bytes exceeds buffer limit"
  | .io cause => "read error: " ++ cause

end Fault

/-- A fault with the chunk it is about and the stream offset where it showed. -/
structure Failure where
  chunk : String
  offset : Nat
  fault : Fault
deriving DecidableEq, Repr

namespace Failure

def message (f : Failure) : String :=
  f.chunk ++ ": " ++ f.fault.message ++ " (offset 0x" ++ Hex.numeral f.offset ++ ")"

end Failure

/-- How a chunk name is shown: a binary chunk by a fixed word, any other without the mark that
says whether it names a file. -/
def chunkDisplayName (chunk : String) : String :=
  match chunk.toList with
  | '\x1b' :: _ => "(binary)"
  | '@' :: rest | '=' :: rest => String.ofList rest
  | _ => chunk

end JitDump
