import JitDump.Container.Record
import JitDump.Text.Utf8

/-! # Containers

A container is a head, then records, each behind its length, then a length of zero. Children stand
before their parents, so one prototype is left on the stack: the root of the tree. -/

namespace JitDump.Container

open Reading in
/-- The length of the next record, whose bytes are then in the buffer; none at the end mark. -/
def nextLength : Reading (Option Nat) := do
  want 1
  match ← peek with
  | none => fail .truncatedInput
  | some b =>
    if b = 0 then
      skip 1
      return none
    else
      want 5
      let length := (← varint).toNat
      if length = 0 then return none
      else
        need length
        return some length

/-- Reads one record if there is another: its prototype and its nesting depth. -/
def nextRecord (ctx : Context) : Decoding (Option (Prototype × Nat)) := do
  match ← nextLength with
  | none => return none
  | some length =>
    let start ← Reading.position
    let (p, depth) ← record ctx
    let actual := (← Reading.position) - start
    if actual = length then
      Decoding.note (.record start length p.instructions.length p.objects.length p.footprint)
      return some (p, depth)
    else Fallible.failAt start (.lengthMismatch length actual)

/-- Pushes the records that `next` reads, up to the end mark. A record takes at least a byte, so
as many rounds as the input has bytes are enough. -/
def records (next : Decoding (Option (Prototype × Nat))) : Nat → Decoding Unit
  | 0 => Reading.fail .truncatedInput
  | rounds + 1 => do
    match ← next with
    | none => return ()
    | some (p, depth) =>
      Decoding.push p depth
      records next rounds

/-- The root, when nothing but it is left. -/
def root : Decoding Prototype := do
  Reading.want 1
  let s ← get
  match s.cursor.buffer, s.stack with
  | [], [(p, _)] => return p
  | _, _ => Reading.fail .trailingData

/-- A whole container from a source of some name, whose records are read in rounds of `next`. -/
def containerBy (next : Context → Decoding (Option (Prototype × Nat))) (options : Options)
    (sourceName : Bytes) : Decoding Prototype := do
  let h ← header options sourceName
  Decoding.note (.header h.flags.bits h.chunkName)
  let rounds := (← get).cursor.undelivered + 1
  records (next (h.context options)) rounds
  root

def container (options : Options) (sourceName : Bytes) : Decoding Prototype :=
  containerBy nextRecord options sourceName

/-- What a decode gives: a tree or a failure, the heap afterwards, and what it came across. -/
structure Decoded where
  result : Except Failure Prototype
  heap : Heap
  events : List Event

/-- What the run of a decode gives to the host, which knows the source by its name. -/
def Decoded.ofRun (sourceName : String) : EStateM.Result Failure Session Prototype → Decoded
  | .ok p s => ⟨.ok p, s.heap, s.events.reverse⟩
  | .error e s =>
    ⟨.error { e with chunk := chunkDisplayName sourceName }, s.heap, s.events.reverse⟩

/-- Decodes one container. The name of the source names the chunk in failures and becomes the
chunk name of a stripped container. -/
def decode (options : Options) (heap : Heap) (source : Source) (sourceName : String) : Decoded :=
  .ofRun sourceName (container options (Utf8.encode sourceName) (.start heap source))

end JitDump.Container
