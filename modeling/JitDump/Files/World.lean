import JitDump.Files.Tree

/-! # The world of a program

A world is a tree of files with a current directory, what a program has written to its streams, and
the system between the program and its files. What a path leads to and which directories can be made
is decided by the tree; but whether a file is opened, created and written is up to the system, which
answers one request after another. It may refuse any of them, hand out a file in pieces or fail at
it, and break off a write behind some of the bytes. -/

namespace JitDump

open Files

/-- What a read of an open file comes to. -/
inductive FileRead where
  /-- One byte and `more` of them, or what is left. -/
  | piece (more : Nat)
  | interrupted
  | failed (e : SystemError)
deriving DecidableEq, Repr

/-- What a system answers to a request to open, create or write a file. -/
structure Answer where
  refusal : Option SystemError
  /-- How many of the bytes written so far a file is left with where a write is refused. -/
  kept : Nat
  /-- The reads of a file that is opened, up to one that hands out the rest. -/
  reads : List FileRead
deriving DecidableEq, Repr

namespace Answer

/-- A request is granted, and a file handed out as it is asked for. -/
def plain : Answer := ⟨none, 0, []⟩

/-- What reads of a file with some content come to. -/
def turns : List FileRead → Bytes → List Turn
  | [], content => [.bytes content]
  | .piece more :: reads, content =>
    .bytes (content.take (more + 1)) :: turns reads (content.drop (more + 1))
  | .interrupted :: reads, content => .interrupted :: turns reads content
  | .failed e :: reads, content => .failed e.message :: turns reads content

def source (a : Answer) (content : Bytes) : Source := ⟨turns a.reads content, .finished⟩

end Answer

/-- Files, what has been written so far to the streams, the latest line of the error output first,
and the answers of the system by the number of the request. -/
structure World where
  tree : Files.Tree
  current : Files.Location
  output : String
  errors : List String
  answers : Nat → Answer
  requests : Nat

namespace World

/-- A world in which every request is granted, before a program has done anything. -/
def calm (tree : Files.Tree) (current : Files.Location) : World :=
  ⟨tree, current, "", [], fun _ => .plain, 0⟩

/-- The answer to the next request. -/
def answer (w : World) : Answer := w.answers w.requests

def asked (w : World) : World := { w with requests := w.requests + 1 }

/-! ## Looking and making directories -/

def kind (path : String) (w : World) : Except SystemError FileKind :=
  (w.tree.find w.current path).map (·.2.kind)

def entries (path : String) (w : World) : Except SystemError (List (String × FileKind)) := do
  match ← w.tree.find w.current path with
  | (l, .directory) => .ok ((w.tree.children l).map fun (name, n) => (name, n.kind))
  | (_, .file _) => .error .notDirectory

def makeDirectory (path : String) (w : World) : Except SystemError World := do
  let (_, tree) ← w.tree.make w.current path .alreadyThere fun
    | some _ => .error .alreadyThere
    | none => .ok .directory
  .ok { w with tree }

/-! ## Files -/

/-- Opens what stands at a path. A directory is opened as well, but cannot be read. -/
def openFile (path : String) (w : World) : Except SystemError Source := do
  match w.answer.refusal, ← w.tree.find w.current path with
  | some e, _ => .error e
  | none, (_, .file content) => .ok (w.answer.source content)
  | none, (_, .directory) => .ok ⟨[], .failing SystemError.isDirectory.message⟩

/-- Makes a file without content at the place of a path. -/
def create (path : String) (w : World) : Except SystemError (Location × World) := do
  match w.answer.refusal with
  | some e => .error e
  | none =>
    if Path.endsInSlash path then .error .isDirectory
    else
      let (l, tree) ← w.tree.make w.current path .isDirectory fun
        | some .directory => .error .isDirectory
        | _ => .ok (.file [])
      .ok (l, { w with tree })

/-- Writes behind the content of a file. Where that is refused, the file is left with some of what
was written so far. -/
def write (l : Location) (bytes : Bytes) (w : World) : Except SystemError Unit × World :=
  let content := (w.tree.content? l).getD [] ++ bytes
  match w.answer.refusal with
  | none => (.ok (), { w.asked with tree := w.tree.fill l content })
  | some e => (.error e, { w.asked with tree := w.tree.fill l (content.take w.answer.kept) })

/-- The world after an operation that changes it unless it is refused. -/
def attempt (f : World → Except SystemError World) : StateM World (Except SystemError Unit) :=
  fun w =>
    match f w with
    | .ok w' => (.ok (), w')
    | .error e => (.error e, w)

instance : Host (StateM World) where
  Handle := Location
  currentDirectory := do return "/" ++ "/".intercalate (← get).current
  kind path := do return (← get).kind path
  openFile path := fun w => (w.openFile path, w.asked)
  entries path := do return (← get).entries path
  makeDirectory path := attempt (makeDirectory path)
  create path := fun w =>
    match w.create path with
    | .ok (l, w') => (.ok l, w'.asked)
    | .error e => (.error e, w.asked)
  write l bytes := write l bytes
  flush l := write l []
  say text := modify fun w => { w with output := w.output ++ text }
  report line := modify fun w => { w with errors := line :: w.errors }

end World

end JitDump
