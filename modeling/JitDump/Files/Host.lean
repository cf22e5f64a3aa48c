import JitDump.Files.Path
import JitDump.Source

/-! # What a program asks of its host -/

namespace JitDump

/-- Why the host refused. -/
inductive SystemError where
  | notFound
  | alreadyThere
  | notDirectory
  | isDirectory
  | nameTooLong
  | denied
  | noSpace
  | other (text : String)
deriving DecidableEq, Repr

namespace SystemError

def message : SystemError → String
  | .notFound => "No such file or directory (os error 2)"
  | .alreadyThere => "File exists (os error 17)"
  | .notDirectory => "Not a directory (os error 20)"
  | .isDirectory => "Is a directory (os error 21)"
  | .nameTooLong => "File name too long (os error 36)"
  | .denied => "Permission denied (os error 13)"
  | .noSpace => "No space left on device (os error 28)"
  | .other text => text

end SystemError

/-- What stands at a path. -/
inductive FileKind where
  | file
  | directory
deriving DecidableEq, Repr

/-- Files, the current directory and two streams of text. -/
class Host (m : Type → Type) where
  /-- A file that was made and is being written. -/
  Handle : Type
  currentDirectory : m String
  kind : String → m (Except SystemError FileKind)
  /-- Opens a file, whose content comes in reads. -/
  openFile : String → m (Except SystemError Source)
  /-- The names in a directory, in any order. -/
  entries : String → m (Except SystemError (List (String × FileKind)))
  makeDirectory : String → m (Except SystemError Unit)
  /-- Makes a file, or empties the one that is there. -/
  create : String → m (Except SystemError Handle)
  /-- Puts bytes behind those written so far. They may be held back, and a write or a flush that
  fails may lose what was held back. -/
  write : Handle → Bytes → m (Except SystemError Unit)
  /-- Holds back nothing any more. -/
  flush : Handle → m (Except SystemError Unit)
  /-- Writes to the standard output. -/
  say : String → m Unit
  /-- Writes a line to the standard error output. -/
  report : String → m Unit

namespace Host

variable {m : Type → Type} [Monad m] [Host m]

def found (path : String) : m Bool := do
  match ← kind path with
  | .ok _ => return true
  | .error _ => return false

/-- Makes those of some directories that are not there, parents first. A directory that is there
already is left alone. -/
def makeMissing : List String → m (Except SystemError Unit)
  | [] => return .ok ()
  | path :: rest => do
    match ← makeDirectory path with
    | .ok _ => makeMissing rest
    | .error e =>
      match ← kind path with
      | .ok .directory => makeMissing rest
      | _ => return .error e

/-- Finds the directories of a path that have to be made, the path itself last; the paths are
tried from the longest on, and those not yet made are kept. -/
def makeAncestors (missing : List String) : List String → m (Except SystemError (List String))
  | [] => return .ok missing
  | path :: rest => do
    if (Path.parent? path).isNone then return .ok missing
    match ← makeDirectory path with
    | .ok _ => return .ok missing
    | .error .notFound => makeAncestors (path :: missing) rest
    | .error e =>
      match ← kind path with
      | .ok .directory => return .ok missing
      | _ => return .error e

/-- Makes a directory with all that lead to it. -/
def makeDirectories (path : String) : m (Except SystemError Unit) := do
  match ← makeAncestors [] (Path.ancestors path) with
  | .ok missing => makeMissing missing
  | .error e => return .error e

end Host

end JitDump
