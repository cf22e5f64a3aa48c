import JitDump.Program

/-! # The command line

The system is the host. A path is followed from the current directory, as the system follows it;
an empty path leads nowhere. -/

namespace JitDump

/-- The number of a system error, which some operations negate. -/
def SystemError.number (code : UInt32) : UInt32 := if code < 0x80000000 then code else 0 - code

/-- What a refusal of the system says. -/
def SystemError.ofError (e : IO.Error) : SystemError :=
  match e with
  | .noFileOrDirectory .. => .notFound
  | .alreadyExists .. => .alreadyThere
  | .permissionDenied .. => .denied
  | .resourceExhausted _ code _ => if number code = 28 then .noSpace else .other (toString e)
  | .inappropriateType _ code _ =>
    if number code = 20 then .notDirectory
    else if number code = 21 then .isDirectory
    else .other (toString e)
  | .invalidArgument _ code _ => if number code = 36 then .nameTooLong else .other (toString e)
  | e => .other (toString e)

/-- Everything but a directory counts as a file. -/
def FileKind.ofType : IO.FS.FileType → FileKind
  | .dir => .directory
  | _ => .file

namespace Main

/-- An operation with a refusal as its result. -/
def granted {α : Type} (operation : IO α) : IO (Except SystemError α) := do
  match ← operation.toBaseIO with
  | .ok a => return .ok a
  | .error e => return .error (.ofError e)

def atPath {α : Type} (path : String) (operation : String → IO α) :
    IO (Except SystemError α) := do
  if path.isEmpty then return .error .notFound
  granted (operation path)

/-- What the reads of an open file come to, up to its end or to one that fails. -/
def drain (handle : IO.FS.Handle) : IO Source := do
  let mut turns : Array Turn := #[]
  repeat
    match ← (handle.read Cursor.refillChunk.toUSize).toBaseIO with
    | .error e => return ⟨turns.toList, .failing (SystemError.ofError e).message⟩
    | .ok piece =>
      if piece.isEmpty then break
      turns := turns.push (.bytes piece.toList)
  return ⟨turns.toList, .finished⟩

instance : Host IO where
  Handle := IO.FS.Handle
  currentDirectory := do return (← IO.currentDir).toString
  kind path := atPath path fun p => do
    return .ofType (← ((← IO.currentDir) / p).metadata).type
  openFile path := atPath path fun p => do drain (← IO.FS.Handle.mk p .read)
  entries path := atPath path fun p => do
    (← ((← IO.currentDir) / p).readDir).toList.mapM fun entry => do
      return (entry.fileName, .ofType (← entry.path.symlinkMetadata).type)
  makeDirectory path := atPath path fun p => IO.FS.createDir p
  create path := atPath path fun p => IO.FS.Handle.mk p .write
  write handle bytes := granted (handle.write ⟨bytes.toArray⟩)
  flush handle := granted handle.flush
  say := IO.print
  report := IO.eprintln

end Main

end JitDump

/-- Decodes obfuscated bytecode files to listings. -/
def main (arguments : List String) : IO UInt32 := do
  return (← JitDump.Program.run arguments (← IO.getEnv "RUST_LOG")).toUInt32
