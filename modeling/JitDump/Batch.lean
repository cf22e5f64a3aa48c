import JitDump.Container
import JitDump.Files.Host
import JitDump.Listing
import JitDump.Log

/-! # Decoding files to listings

A batch decodes a file, or every file in a directory in the order of their names, on one heap. A
file that fails is reported and counted, and the batch goes on; only a batch that cannot start
fails as a whole. -/

namespace JitDump

/-- What to decode, and where its listings go. -/
structure Batch where
  input : String
  /-- The directory of the listings; without one they go into a directory next to the input. -/
  output : Option String
  options : Container.Options
  pretty : Bool

/-- A failure that ends a program, with the cause if it is not all there is to say. -/
structure Fatal where
  context : String
  cause : Option String
deriving DecidableEq, Repr

namespace Fatal

/-- The lines of a failure. -/
def report (f : Fatal) : List String :=
  ("Error: " ++ f.context) ::
    match f.cause with
    | none => []
    | some cause => ["", "Caused by:", "    " ++ cause]

end Fatal

namespace Batch

/-- What went wrong with a file. -/
inductive Problem where
  | nameless (path : String)
  | unopened (path : String) (e : SystemError)
  | undecoded (path : String) (e : Failure)
  | uncreated (listing : String) (e : SystemError)
  | unwritten (listing : String) (e : Listing.WriteError)
  | unflushed (listing : String) (e : SystemError)

namespace Problem

/-- A problem with its causes. One of writing tells its cause once more, which is an error of its
own, and one of flushing is told without the path. -/
def message : Problem → String
  | .nameless path => "No file name in " ++ path
  | .unopened path e => "Cannot open " ++ path ++ ": " ++ e.message
  | .undecoded path e => "Failed to decode " ++ path ++ ": " ++ e.message
  | .uncreated listing e => "Cannot create " ++ listing ++ ": " ++ e.message
  | .unwritten listing e => "Failed to write " ++ listing ++ ": " ++ e.message ++ ": " ++ e.cause
  | .unflushed _ e => e.message

end Problem

/-- What came of a file: the path of its listing or what went wrong. -/
abbrev Outcome := Except Problem String

/-- The path of the listing that was made for a file, whether or not it could be written. -/
def created? : Outcome → Option String
  | .ok listing => some listing
  | .error (.unwritten listing _) | .error (.unflushed listing _) => some listing
  | .error _ => none

/-- How many files were decoded and how many failed. -/
structure Summary where
  decoded : Nat
  failed : Nat
deriving DecidableEq, Repr

/-- The summary of what came of the files at some paths. -/
def Summary.ofOutcomes (outcomes : List (String × Outcome)) : Summary where
  decoded := outcomes.countP (·.2.isOk)
  failed := outcomes.countP (!·.2.isOk)

/-- The name of the default directory of listings. -/
def outputDirectory : String := "dec"

/-- The name of a listing: that of its file up to the first point, with an extension. -/
def outputName (fileName extension : String) : String :=
  String.ofList (fileName.toList.takeWhile (· != '.')) ++ "." ++ extension

/-! ## What is logged -/

/-- The line of something that a decode came across. -/
def eventLine : Container.Event → Log.Line
  | .header flags chunk =>
    ⟨.debug, "bcdec_reader::decoder", "container header",
      [("flags", toString flags), ("chunk", chunk.text)]⟩
  | .pools numbers objects upvalues =>
    ⟨.trace, "bcdec_reader::proto", "constant pools",
      [("numbers", toString numbers), ("objects", toString objects),
        ("upvalues", toString upvalues)]⟩
  | .record offset length instructions objects footprint =>
    ⟨.debug, "bcdec_reader::decoder", "decoded prototype",
      [("offset", toString offset), ("len", toString length),
        ("instructions", toString instructions), ("objects", toString objects),
        ("footprint", toString footprint)]⟩

def decodedLine (path listing : String) : Log.Line :=
  ⟨.info, "bcdec::decode", path ++ " -> " ++ listing, []⟩

def failedLine (p : Problem) : Log.Line := ⟨.error, "bcdec::decode", p.message, []⟩

/-- The line that reports what came of the file at a path. -/
def outcomeLine (path : String) : Outcome → Log.Line
  | .ok listing => decodedLine path listing
  | .error problem => failedLine problem

def doneLine (s : Summary) (strings : Nat) : Log.Line :=
  ⟨.debug, "bcdec::decode", "done",
    [("decoded", toString s.decoded), ("failed", toString s.failed),
      ("strings", toString strings)]⟩

/-! ## One file -/

/-- What came of a file, with the heap afterwards and what the decode came across. -/
structure FileResult where
  outcome : Outcome
  heap : Heap
  events : List Container.Event

variable {m : Type → Type} [Monad m] [Host m]

/-- Writes to a file that was made; a refusal is told by its message. -/
def put (handle : Host.Handle m) (bytes : Bytes) : m (Except String Unit) := do
  return (← Host.write handle bytes).mapError SystemError.message

/-- Makes the listing of a prototype tree at a path. It is made first, in place of what is there,
and then written. -/
def list (b : Batch) (listing : String) (p : Prototype) : m Outcome := do
  match ← Host.create listing with
  | .error e => return .error (.uncreated listing e)
  | .ok handle =>
    match ← Listing.writeTo (put handle) b.pretty p with
    | .error e => return .error (.unwritten listing e)
    | .ok _ =>
      match ← Host.flush handle with
      | .error e => return .error (.unflushed listing e)
      | .ok _ => return .ok listing

/-- Decodes one file. Its listing is made only if the decode succeeds. -/
def decodeFile (b : Batch) (directory path : String) (heap : Heap) : m FileResult := do
  match Path.fileName? path with
  | none => return ⟨.error (.nameless path), heap, []⟩
  | some name =>
    match ← Host.openFile path with
    | .error e => return ⟨.error (.unopened path e), heap, []⟩
    | .ok source =>
      let d := Container.decode b.options heap source ("@" ++ name)
      match d.result with
      | .error e => return ⟨.error (.undecoded path e), d.heap, d.events⟩
      | .ok p =>
        let outcome ← b.list (Path.join directory (outputName name Listing.extension)) p
        return ⟨outcome, d.heap, d.events⟩

/-! ## All files -/

/-- Names in their order. -/
def inOrder (names : List String) : List String := names.mergeSort fun a b => !decide (b < a)

/-- The files of a directory in the order of their names. -/
def filesIn (directory : String) : ExceptT Fatal m (List String) := do
  match ← (Host.entries directory : m _) with
  | .error e => throw ⟨"Cannot read " ++ directory, some e.message⟩
  | .ok entries =>
    let names := (entries.filter (·.2 == .file)).map (·.1)
    return (inOrder names).map (Path.join directory)

/-- The directory of the listings, given the one in which they go into one of the default name. -/
def directoryBeside (b : Batch) (place : String) : String :=
  b.output.getD (Path.join place outputDirectory)

/-- The directory that holds a file. -/
def placeOf (path : String) : String :=
  match Path.parent? path with
  | some p => if p.isEmpty then "." else p
  | none => "."

/-- The files of a batch and the directory of its listings. -/
def plan (b : Batch) : ExceptT Fatal m (List String × String) := do
  match ← (Host.kind b.input : m _) with
  | .error e => throw ⟨"Cannot access " ++ b.input, some e.message⟩
  | .ok .directory =>
    let files ← filesIn b.input
    return (files, b.directoryBeside b.input)
  | .ok .file => return ([b.input], b.directoryBeside (placeOf b.input))

/-- Decodes files one after another. Every file but the first starts a collection cycle. What came
of the files before is in reverse. -/
def decodeAll (b : Batch) (log : Log.Line → m Unit) (directory : String) (heap : Heap)
    (done : List (String × Outcome)) : List String → m (List (String × Outcome) × Heap)
  | [] => return (done.reverse, heap)
  | path :: rest => do
    let r ← b.decodeFile directory path (if done.isEmpty then heap else heap.beginCycle)
    r.events.forM fun e => log (eventLine e)
    log (outcomeLine path r.outcome)
    decodeAll b log directory r.heap ((path, r.outcome) :: done) rest

/-- What comes of each file of a batch on a fresh heap, with the heap afterwards. -/
def outcomes (b : Batch) (log : Log.Line → m Unit) :
    ExceptT Fatal m (List (String × Outcome) × Heap) := do
  let (files, directory) ← b.plan
  match ← (Host.makeDirectories directory : m _) with
  | .error e => throw ⟨"Cannot create " ++ directory, some e.message⟩
  | .ok _ => (b.decodeAll log directory .new [] files : m _)

/-- Runs a batch. -/
def run (b : Batch) (log : Log.Line → m Unit) : ExceptT Fatal m Summary := do
  let (outcomes, heap) ← b.outcomes log
  let s := Summary.ofOutcomes outcomes
  log (doneLine s heap.strings.count)
  return s

end Batch

end JitDump
