import JitDump.Container.DebugBlock
import JitDump.Container.Header
import JitDump.Masking

/-! # Records

A record is one prototype. It opens with a chained head and the sizes of its parts; instructions,
upvalue descriptors, numbers, objects and the debug block follow in that order. Objects stand in
the order opposite to that in which instructions address them, and a reference to a child takes
the latest finished prototype that no parent has claimed. -/

namespace JitDump.Container

/-- The longest chain of children below a root. -/
def maxNesting : Nat := 200

/-- What the records of a container share. -/
structure Context where
  flags : Flags
  options : Options
  chunkName : Str

def Header.context (h : Header) (options : Options) : Context := ⟨h.flags, options, h.chunkName⟩

def headBytes : Reading RecordHead := do
  match ← Reading.block 4 with
  | [b0, b1, b2, b3] => pure (.unchain b0 b1 b2 b3)
  | _ => Reading.fail .truncatedInput

/-- What a record that carries debug info announces of it. A record that must carry none is
rejected once its announcement is stepped over, and how far that reaches does not matter. -/
def debugHeader (options : Options) : Reading (Option DebugHeader) := do
  let start ← Reading.position
  let size ← Reading.varint
  if size = 0 then return none
  if options.allowDebugInfo then
    let firstLine ← Reading.varint
    let lineCount ← Reading.varint
    return some ⟨size, firstLine, lineCount⟩
  else
    Fallible.attempt (Reading.skip 4)
    let _ ← Fallible.times 5 (Fallible.attempt Reading.varint)
    Fallible.failAt start .unexpectedDebugInfo

/-! ## Instructions -/

/-- The instructions behind the words from an index on, after those already restored, which are in
reverse; the error is the index of the first bad word with its opcode number. -/
def restoreFrom (done : List Instruction) (index : Nat) :
    List UInt32 → Except (Nat × UInt8) (List Instruction)
  | [] => .ok done.reverse
  | word :: words =>
    match Instruction.restore word (UInt8.ofNat index) with
    | .ok i => restoreFrom (i :: done) (index + 1) words
    | .error op => .error (index, op)

def instructions (order : ByteOrder) (count : Nat) : Reading (List Instruction) := do
  let start ← Reading.position
  let block ← Reading.block (4 * count)
  match restoreFrom [] 0 (order.words32 block) with
  | .ok code => return code
  | .error (index, op) => Fallible.failAt (start + 4 * index) (.badOpcode op)

/-! ## Constants -/

def word64 (low high : UInt32) : UInt64 := high.toUInt64 <<< 32 ||| low.toUInt64

/-- A word of 64 bits, its low half first. -/
def wide : Reading UInt64 := do
  let low ← Reading.varint
  let high ← Reading.varint
  return word64 low high

def number : Reading Number := do
  let (low, isFloat) ← Reading.taggedVarint
  if isFloat then
    let high ← Reading.varint
    return .float ⟨word64 low high⟩
  else return .int low.toInt32

/-- A string of some length, which is masked. -/
def maskedString (length : Nat) : Decoding Str := do
  let masked ← Reading.block length
  Decoding.intern masked.unmask

def templateValue : Decoding Template.Value := do
  let kind ← Reading.varint
  match kind with
  | 0 => return .nil
  | 1 => return .false
  | 2 => return .true
  | 3 => return .int (← Reading.varint).toInt32
  | 4 => return .num ⟨← wide⟩
  | _ => return .str (← maskedString (kind.toNat - 5))

/-- A key and its value, stored in a table. -/
def templatePair (t : Template) : Decoding Template := do
  let start ← Reading.position
  match (← templateValue).key? with
  | none => Fallible.failAt start .invalidKey
  | some key => return t.insert key (← templateValue)

def templatePairs (t : Template) : Nat → Decoding Template
  | 0 => pure t
  | n + 1 => do
    let t ← templatePair t
    templatePairs t n

/-- A table: the sizes of its hash part and its array part, then the values of the array part,
then pairs. -/
def template : Decoding Template := do
  let pairs ← Reading.varint
  let values ← Reading.varint
  let array ← Fallible.times values.toNat templateValue
  templatePairs ⟨array.toArray, .empty⟩ pairs.toNat

/-- An object of the pool, and how deep the children that it brings nest. -/
def object : Decoding (Constant Prototype × Nat) := do
  let start ← Reading.position
  let kind ← Reading.varint
  match kind with
  | 0 =>
    match ← Decoding.pop? with
    | none => Fallible.failAt start .stackUnderflow
    | some (child, depth) =>
      if maxNesting < depth + 1 then Fallible.failAt start (.nestingTooDeep (depth + 1))
      else return (.child child, depth + 1)
  | 1 => return (.table (← template), 0)
  | 2 => return (.int64 (← wide).toInt64, 0)
  | 3 => return (.uint64 (← wide), 0)
  | 4 =>
    let re ← wide
    let im ← wide
    return (.complex ⟨re⟩ ⟨im⟩, 0)
  | _ => return (.str (← maskedString (kind.toNat - 5)), 0)

/-- The pool of objects in addressing order with the nesting depth of its owner, given the objects
that the wire lists first. -/
def objectsFrom (pool : List (Constant Prototype)) (depth : Nat) :
    Nat → Decoding (List (Constant Prototype) × Nat)
  | 0 => pure (pool, depth)
  | n + 1 => do
    let (o, d) ← object
    objectsFrom (o :: pool) (max depth d) n

/-! ## The whole record -/

/-- What stands in a record before its objects. -/
structure Front where
  head : RecordHead
  objectCount : UInt32
  codeCount : UInt32
  debug? : Option DebugHeader
  code : List Instruction
  upvalues : List UInt16
  numbers : List Number

/-- What a record announces of its debug block; in a stripped container none does. -/
def announced (ctx : Context) : Reading (Option DebugHeader) :=
  if ctx.flags.isStripped then return none else debugHeader ctx.options

def front (ctx : Context) : Reading Front := do
  let head ← headBytes
  let numberCount ← Reading.varint
  let objectCount ← Reading.varint
  let codeCount ← Reading.varint
  let debug? ← announced ctx
  let code ← instructions ctx.flags.order codeCount.toNat
  let upvalues ← Fallible.times head.upvalueCount.toNat (Reading.word16 ctx.flags.order)
  let numbers ← Fallible.times numberCount.toNat number
  return { head, objectCount, codeCount, debug?, code, upvalues, numbers }

def debugBlock (order : ByteOrder) (header : DebugHeader) (lineEntries upvalues : Nat) :
    Reading DebugInfo := do
  let start ← Reading.position
  let block ← Reading.block header.size.toNat
  match DebugBlock.parse? order header lineEntries upvalues block with
  | some info => return info
  | none => Fallible.failAt start (.lengthMismatch header.size.toNat block.length)

/-- The debug block of a record, if its front announces one. -/
def debugInfo (order : ByteOrder) (f : Front) : Reading (Option DebugInfo) :=
  match f.debug? with
  | none => return none
  | some header =>
    some <$> debugBlock order header f.codeCount.toNat f.head.upvalueCount.toNat

/-- The prototype of a record from its parts. -/
def Front.prototype (f : Front) (objects : List (Constant Prototype)) (debug : Option DebugInfo)
    (chunkName : Str) : Prototype where
  flags := f.head.flags
  paramCount := f.head.paramCount
  frameSize := f.head.frameSize
  upvalueCount := f.head.upvalueCount.toUInt16
  instructions :=
    .entry (Prototype.hasFlag f.head.flags Prototype.variadicFlag) f.head.frameSize :: f.code
  upvalues := f.upvalues
  numbers := f.numbers
  objects := objects
  debug := debug
  chunkName := chunkName

/-- A prototype and its nesting depth. -/
def record (ctx : Context) : Decoding (Prototype × Nat) := do
  let f ← front ctx
  let (objects, depth) ← objectsFrom [] 0 f.objectCount.toNat
  Decoding.note (.pools f.numbers.length objects.length f.upvalues.length)
  let debug ← debugInfo ctx.flags.order f
  return (f.prototype objects debug ctx.chunkName, depth)

end JitDump.Container
