/-! # The command line

Arguments that open with a hyphen are options, up to a double hyphen; all others are positional.
Every option may be given once. The first argument that settles the request ends the reading: a
call for help or for the version, or a mistake. -/

namespace JitDump.CommandLine

def programName : String := "bcdec"

def programVersion : String := "0.1.0"

def versionText : String := programName ++ " " ++ programVersion ++ "\n"

def usage : String := "Usage: bcdec [OPTIONS] <INPUT> [OUTPUT]"

def helpText : String :=
  "Decode obfuscated LuaJIT bytecode\n\n" ++ usage ++ "\n\n" ++
  "Arguments:\n" ++
  "  <INPUT>   Bytecode file, or directory of bytecode files\n" ++
  "  [OUTPUT]  Output directory (default: `dec` next to the input)\n\n" ++
  "Options:\n" ++
  "      --config <FILE>     " ++
  "Config file (default: bcdec.toml in the current or a parent directory)\n" ++
  "      --allow-debug-info  Accept prototypes that carry debug info\n" ++
  "      --no-ffi            Reject containers with FFI constants\n" ++
  "      --pretty            Indent JSON listings\n" ++
  "  -v, --verbose           Verbose logging\n" ++
  "  -h, --help              Print help\n" ++
  "  -V, --version           Print version\n"

/-- What to decode, where to put it, and how. -/
structure Invocation where
  input : String
  output : Option String
  config : Option String
  allowDebugInfo : Bool
  noFfi : Bool
  pretty : Bool
  verbose : Bool
deriving DecidableEq, Repr

inductive Request where
  | run (i : Invocation)
  | help
  | version
  | misuse (cause : String)
deriving DecidableEq, Repr

/-- What has been read so far. -/
structure Draft where
  input : Option String
  output : Option String
  config : Option String
  allowDebugInfo : Bool
  noFfi : Bool
  pretty : Bool
  verbose : Bool

namespace Draft

def empty : Draft := ⟨none, none, none, false, false, false, false⟩

/-- The reading goes on with a draft, or the request is settled. -/
abbrev Step := Except Request Draft

def misuse (cause : String) : Step := .error (.misuse cause)

def repeated (option : String) : Step :=
  misuse ("the argument '" ++ option ++ "' cannot be used multiple times")

def unexpected (argument : String) : Step :=
  misuse ("unexpected argument '" ++ argument ++ "' found")

def missingValue (option : String) : Step :=
  misuse ("a value is required for '" ++ option ++ "' but none was supplied")

def positional (d : Draft) (argument : String) : Step :=
  if argument.isEmpty then missingValue "<INPUT>"
  else if d.input.isNone then .ok { d with input := some argument }
  else if d.output.isNone then .ok { d with output := some argument }
  else unexpected argument

def setConfig (d : Draft) (path : String) : Step :=
  if path.isEmpty then missingValue "--config <FILE>"
  else if d.config.isSome then repeated "--config <FILE>"
  else .ok { d with config := some path }

def setVerbose (d : Draft) : Step :=
  if d.verbose then repeated "--verbose" else .ok { d with verbose := true }

/-- An option by its long name. -/
def long (d : Draft) (name : String) : Step :=
  match name with
  | "allow-debug-info" =>
    if d.allowDebugInfo then repeated "--allow-debug-info"
    else .ok { d with allowDebugInfo := true }
  | "no-ffi" => if d.noFfi then repeated "--no-ffi" else .ok { d with noFfi := true }
  | "pretty" => if d.pretty then repeated "--pretty" else .ok { d with pretty := true }
  | "verbose" => d.setVerbose
  | "help" => .error .help
  | "version" => .error .version
  | _ => unexpected ("--" ++ name)

/-- An option by its letter. -/
def short (d : Draft) (letter : Char) : Step :=
  match letter with
  | 'v' => d.setVerbose
  | 'h' => .error .help
  | 'V' => .error .version
  | _ => unexpected ("-" ++ String.singleton letter)

def finish (d : Draft) : Request :=
  match d.input with
  | none => .misuse "the following required arguments were not provided: <INPUT>"
  | some input =>
    .run ⟨input, d.output, d.config, d.allowDebugInfo, d.noFfi, d.pretty, d.verbose⟩

def settle : Step → Request
  | .ok d => d.finish
  | .error r => r

/-- The argument with `--config` in front and an equals sign behind that. -/
def attachedConfig? (argument : String) : Option String :=
  let opening := "--config=".toList
  if opening.isPrefixOf argument.toList then
    some (String.ofList (argument.toList.drop opening.length))
  else none

/-- Whether an argument may be the value of the option in front of it. -/
def isValue (argument : String) : Bool :=
  argument == "-" || argument.toList.head? != some '-'

def read (d : Draft) : List String → Request
  | [] => d.finish
  | argument :: rest =>
    match argument.toList with
    | ['-', '-'] => settle (rest.foldlM positional d)
    | '-' :: '-' :: name =>
      match attachedConfig? argument with
      | some path =>
        match d.setConfig path with
        | .ok d => read d rest
        | .error r => r
      | none =>
        if argument = "--config" then
          match rest with
          | [] => settle (missingValue "--config <FILE>")
          | path :: rest =>
            if isValue path then
              match d.setConfig path with
              | .ok d => read d rest
              | .error r => r
            else settle (missingValue "--config <FILE>")
        else
          match d.long (String.ofList name) with
          | .ok d => read d rest
          | .error r => r
    | '-' :: letter :: letters =>
      match (letter :: letters).foldlM short d with
      | .ok d => read d rest
      | .error r => r
    | _ =>
      match d.positional argument with
      | .ok d => read d rest
      | .error r => r

end Draft

/-- The request that arguments make. -/
def parse (arguments : List String) : Request := Draft.empty.read arguments

end JitDump.CommandLine
