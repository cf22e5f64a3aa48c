import JitDump.Batch
import JitDump.CommandLine
import JitDump.Log.Filter
import JitDump.Settings

/-! # The program

A run reads its arguments, then its settings, then decodes. Arguments add to what a configuration
file allows or forbids. -/

namespace JitDump.Program

variable {m : Type → Type} [Monad m] [Host m]

def configName : String := "bcdec.toml"

/-- The first configuration file in some directories. -/
def findConfig : List String → m (Option String)
  | [] => return none
  | directory :: rest => do
    let path := Path.join directory configName
    if ← Host.found path then return some path else findConfig rest

/-- The path of the configuration file: the one that was asked for, or else the one in the current
directory or the closest directory above it. -/
def configPath? (asked : Option String) : ExceptT Fatal m (Option String) := do
  match asked with
  | some path =>
    if ← (Host.found path : m _) then return some path
    else throw ⟨"Config file not found: " ++ path, none⟩
  | none => (do findConfig (Path.ancestors (← Host.currentDirectory)) : m _)

/-- The settings in a configuration file. -/
def settingsIn (path : String) (source : Source) : Except Fatal Settings :=
  match source.contents with
  | .error cause => .error ⟨cause, none⟩
  | .ok content =>
    match Utf8.decode? content with
    | none => .error ⟨"stream did not contain valid UTF-8", none⟩
    | some text =>
      match Settings.ofText? text with
      | none => .error ⟨"Failed to parse " ++ path, none⟩
      | some settings => .ok settings

def loadSettings (log : Log.Line → m Unit) (asked : Option String) : ExceptT Fatal m Settings := do
  match ← configPath? asked with
  | none => return .default
  | some path =>
    match ← (Host.openFile path : m _) with
    | .error e => throw ⟨e.message, none⟩
    | .ok source =>
      match settingsIn path source with
      | .error f => throw f
      | .ok settings =>
        log ⟨.debug, "bcdec::config", "loaded config", [("path", path)]⟩
        return settings

def batch (i : CommandLine.Invocation) (s : Settings) : Batch where
  input := i.input
  output := i.output
  options := ⟨s.options.ffi && !i.noFfi, s.options.allowDebugInfo || i.allowDebugInfo⟩
  pretty := i.pretty || s.pretty

def execute (log : Log.Line → m Unit) (i : CommandLine.Invocation) :
    ExceptT Fatal m Batch.Summary := do
  let settings ← loadSettings log i.config
  (batch i settings).run log

/-- The filter of log lines: what a description asks for, with the level of the program for lines
that no target is for. -/
def filter (verbose : Bool) (description : Option String) : Log.Filter × List String :=
  let (f, complaints) := Log.Filter.parse (description.getD "")
  let level : Log.Level := if verbose then .debug else .info
  (f.add ⟨none, none, level.verbosity⟩, complaints)

/-- Shows a line if a filter lets it through. -/
def logger (shown : Log.Filter) (l : Log.Line) : m Unit :=
  if shown.shows l then Host.report l.render else return ()

/-- Reports how a program has ended, and gives its exit code. -/
def finish (log : Log.Line → m Unit) : Except Fatal Batch.Summary → m UInt8
  | .error f => do
    f.report.forM Host.report
    return 1
  | .ok s => do
    if 0 < s.failed then
      log ⟨.error, "bcdec", s!"{s.failed} of {s.decoded + s.failed} files failed", []⟩
      return 1
    else return 0

/-- Runs the program with arguments and a description of the log lines to show; returns its exit
code. -/
def run (arguments : List String) (logVariable : Option String) : m UInt8 := do
  match CommandLine.parse arguments with
  | .help =>
    Host.say CommandLine.helpText
    return 0
  | .version =>
    Host.say CommandLine.versionText
    return 0
  | .misuse cause =>
    [s!"error: {cause}", "", CommandLine.usage].forM Host.report
    return 2
  | .run i =>
    let (shown, complaints) := filter i.verbose logVariable
    complaints.forM Host.report
    finish (logger shown) (← (execute (logger shown) i).run)

end JitDump.Program
